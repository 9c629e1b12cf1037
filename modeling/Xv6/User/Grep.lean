import Mathlib

/-!
# grep

The matcher of `grep.c` and the loop that feeds it with lines.

A pattern means a language: single characters, `.` and `x*` one after the other, tied to the
beginning of the line by `^` and to its end by `$`. The matcher backtracks over the pattern's
text and knows nothing of this. The loop reads pieces of its input of any length, and keeps
the beginning of a line that is not complete yet.

- `matchText_iff`: the matcher finds a line exactly if a part of it is in the language;
- `grep_output`: what is written does not depend on how the input comes in pieces.
-/

namespace Xv6.User.Grep

/-- `'^'` -/
def caret : UInt8 := 94

/-- `'$'` -/
def dollar : UInt8 := 36

/-- `'.'` -/
def dot : UInt8 := 46

/-- `'*'` -/
def star : UInt8 := 42

/-- `'\n'` -/
def newline : UInt8 := 10

/-- `sizeof(buf)` -/
def BUFSIZE : ℕ := 1024

/-! ## The matcher -/

/-- `matchstar(c, re, text)`, where `here` is `matchhere(re, ·)` -/
def matchstar (here : List UInt8 → Bool) (c : UInt8) : List UInt8 → Bool
  | [] => here []
  | t :: text => here (t :: text) || ((t = c || c = dot) && matchstar here c text)

/-- `matchhere(re, text)`. A string is the list of its characters before the 0. -/
def matchhere : List UInt8 → List UInt8 → Bool
  | [], _ => true
  | [c], text =>
    if c = dollar then text.isEmpty
    else
      match text with
      | [] => false
      | t :: _ => c = dot || c = t
  | c :: s :: re, text =>
    if s = star then matchstar (matchhere re) c text
    else
      match text with
      | [] => false
      | t :: text => (c = dot || c = t) && matchhere (s :: re) text

/-- The loop of `match` over the places in the text, of which the last is its end -/
def matchFrom (re : List UInt8) : List UInt8 → Bool
  | [] => matchhere re []
  | t :: text => matchhere re (t :: text) || matchFrom re text

/-- `match(re, text)` -/
def matchText (re text : List UInt8) : Bool :=
  match re with
  | [] => matchFrom [] text
  | c :: re' => if c = caret then matchhere re' text else matchFrom (c :: re') text

/-! ## What a pattern means -/

/-- A character of a pattern -/
inductive Atom where
  | any
  | lit (c : UInt8)
  deriving DecidableEq

def Atom.Accepts : Atom → UInt8 → Prop
  | any, _ => True
  | lit c, x => x = c

/-- A character, or any number of such characters -/
inductive Item where
  | one (a : Atom)
  | many (a : Atom)
  deriving DecidableEq

/-- The strings of one character -/
def Atom.lang (a : Atom) : Language UInt8 := {w | ∃ x, a.Accepts x ∧ w = [x]}

open scoped Computability in
def Item.lang : Item → Language UInt8
  | one a => a.lang
  | many a => a.lang∗

/-- A pattern: its items, and the ends of the line that it is tied to -/
structure Pattern where
  first : Bool
  items : List Item
  last : Bool
  deriving DecidableEq

/-- A part of the line is in the language of the items. -/
def Pattern.Matches (p : Pattern) (text : List UInt8) : Prop :=
  ∃ before part behind, text = before ++ part ++ behind ∧ part ∈ (p.items.map Item.lang).prod ∧
    (p.first = true → before = []) ∧ (p.last = true → behind = [])

def atomOf (c : UInt8) : Atom := if c = dot then .any else .lit c

/-- The items that a pattern spells, and whether it ends with `$`. A character in front of `*` stands
    for itself, also where it is `$`, and so does a `*` that no character precedes. -/
def parse : List UInt8 → List Item × Bool
  | [] => ([], false)
  | [c] => if c = dollar then ([], true) else ([.one (atomOf c)], false)
  | c :: s :: re =>
    if s = star then (.many (atomOf c) :: (parse re).1, (parse re).2)
    else (.one (atomOf c) :: (parse (s :: re)).1, (parse (s :: re)).2)

def patternOf : List UInt8 → Pattern
  | [] => ⟨false, [], false⟩
  | c :: re =>
    if c = caret then ⟨true, (parse re).1, (parse re).2⟩
    else ⟨false, (parse (c :: re)).1, (parse (c :: re)).2⟩

/-! ## The matcher and the language -/

theorem accepts_atomOf {c x : UInt8} : (atomOf c).Accepts x ↔ c = dot ∨ x = c := by
  unfold atomOf
  split
  · next h => exact iff_of_true trivial (.inl h)
  · next h => exact (or_iff_right h).symm

open scoped Computability in
/-- Any number of characters of one kind -/
theorem mem_many {a : Atom} {w : List UInt8} : w ∈ a.lang∗ ↔ ∀ x ∈ w, a.Accepts x := by
  rw [Language.mem_kstar]
  constructor
  · rintro ⟨ws, rfl, hws⟩ x hx
    obtain ⟨v, hv, hxv⟩ := List.mem_flatten.mp hx
    obtain ⟨y, hy, rfl⟩ := hws v hv
    rw [List.mem_singleton.mp hxv]
    exact hy
  · intro h
    refine ⟨w.map fun x => [x], ?_, fun v hv => ?_⟩
    · induction w with
      | nil => rfl
      | cons x w ih =>
        rw [List.map_cons, List.flatten_cons, ← ih fun y hy => h y (List.mem_cons_of_mem _ hy)]
        rfl
    · obtain ⟨x, hx, rfl⟩ := List.mem_map.mp hv
      exact ⟨x, h x hx, rfl⟩

/-- The items match at the beginning of the text. -/
def Begins (r : List Item × Bool) (text : List UInt8) : Prop :=
  ∃ part behind, text = part ++ behind ∧ part ∈ (r.1.map Item.lang).prod ∧
    (r.2 = true → behind = [])

theorem begins_nil {last : Bool} {text : List UInt8} :
    Begins ([], last) text ↔ (last = true → text = []) := by
  constructor
  · rintro ⟨part, behind, rfl, hpart, hlast⟩ h
    rw [List.map_nil, List.prod_nil, Language.mem_one] at hpart
    rw [hpart, hlast h]
    rfl
  · intro h
    exact ⟨[], text, rfl, by simp, h⟩

theorem begins_cons {i : Item} {is : List Item} {last : Bool} {text : List UInt8} :
    Begins (i :: is, last) text ↔ ∃ u rest, text = u ++ rest ∧ u ∈ i.lang ∧ Begins (is, last) rest := by
  constructor
  · rintro ⟨part, behind, rfl, hpart, hlast⟩
    rw [List.map_cons, List.prod_cons, Language.mem_mul] at hpart
    obtain ⟨u, hu, v, hv, rfl⟩ := hpart
    exact ⟨u, v ++ behind, List.append_assoc .., hu, v, behind, rfl, hv, hlast⟩
  · rintro ⟨u, rest, rfl, hu, v, behind, rfl, hv, hlast⟩
    refine ⟨u ++ v, behind, (List.append_assoc ..).symm, ?_, hlast⟩
    rw [List.map_cons, List.prod_cons, Language.mem_mul]
    exact ⟨u, hu, v, hv, rfl⟩

/-- A single character -/
theorem begins_one {c : UInt8} {is : List Item} {last : Bool} {text : List UInt8} :
    Begins (.one (atomOf c) :: is, last) text ↔
      ∃ t rest, text = t :: rest ∧ (c = dot ∨ c = t) ∧ Begins (is, last) rest := by
  rw [begins_cons]
  constructor
  · rintro ⟨u, rest, rfl, ⟨t, ht, rfl⟩, hrest⟩
    exact ⟨t, rest, rfl, (accepts_atomOf.mp ht).imp_right Eq.symm, hrest⟩
  · rintro ⟨t, rest, rfl, ht, hrest⟩
    exact ⟨[t], rest, rfl, ⟨t, accepts_atomOf.mpr (ht.imp_right Eq.symm), rfl⟩, hrest⟩

/-- `matchstar` tries the rest of the pattern behind every number of characters `c`. -/
theorem matchstar_iff {here : List UInt8 → Bool} {c : UInt8} {text : List UInt8} :
    matchstar here c text = true ↔
      ∃ u rest, text = u ++ rest ∧ (∀ x ∈ u, (atomOf c).Accepts x) ∧ here rest = true := by
  induction text with
  | nil =>
    rw [matchstar]
    constructor
    · intro h
      exact ⟨[], [], rfl, List.forall_mem_nil _, h⟩
    · rintro ⟨u, rest, heq, -, h⟩
      rwa [(List.nil_eq_append_iff.mp heq).2] at h
  | cons t text ih =>
    rw [matchstar, Bool.or_eq_true, Bool.and_eq_true, ih]
    simp only [Bool.or_eq_true, decide_eq_true_eq]
    constructor
    · rintro (h | ⟨ht, u, rest, rfl, hu, h⟩)
      · exact ⟨[], t :: text, rfl, List.forall_mem_nil _, h⟩
      · exact ⟨t :: u, rest, rfl, List.forall_mem_cons.mpr ⟨accepts_atomOf.mpr ht.symm, hu⟩, h⟩
    · rintro ⟨u, rest, heq, hu, h⟩
      cases u with
      | nil => exact .inl (heq ▸ h)
      | cons x u =>
        obtain ⟨rfl, rfl⟩ := List.cons.inj heq
        obtain ⟨hx, hu⟩ := List.forall_mem_cons.mp hu
        exact .inr ⟨(accepts_atomOf.mp hx).symm, u, rest, rfl, hu, h⟩

/-- **`matchhere`** finds the items at the beginning of the text. -/
theorem matchhere_iff : ∀ re text : List UInt8, matchhere re text = true ↔ Begins (parse re) text
  | [], text => by
    rw [matchhere, parse, begins_nil]
    simp
  | [c], text => by
    unfold matchhere parse
    by_cases hc : c = dollar
    · rw [if_pos hc, if_pos hc, begins_nil]
      simp
    rw [if_neg hc, if_neg hc, begins_one]
    cases text with
    | nil => simp
    | cons t text =>
      constructor
      · intro h
        exact ⟨t, text, rfl, by simpa using h, begins_nil.mpr nofun⟩
      · rintro ⟨t', rest, heq, h, -⟩
        cases heq
        simpa using h
  | c :: s :: re, text => by
    unfold matchhere parse
    by_cases hs : s = star
    · rw [if_pos hs, if_pos hs, begins_cons, matchstar_iff]
      simp only [Item.lang, mem_many, matchhere_iff re]
    rw [if_neg hs, if_neg hs, begins_one]
    cases text with
    | nil => simp
    | cons t text =>
      rw [Bool.and_eq_true, matchhere_iff (s :: re) text]
      constructor
      · rintro ⟨h, hrest⟩
        exact ⟨t, text, rfl, by simpa using h, hrest⟩
      · rintro ⟨t', rest, heq, h, hrest⟩
        cases heq
        exact ⟨by simpa using h, hrest⟩

theorem matchFrom_iff {re text : List UInt8} :
    matchFrom re text = true ↔ ∃ before rest, text = before ++ rest ∧ matchhere re rest = true := by
  induction text with
  | nil =>
    rw [matchFrom]
    constructor
    · intro h
      exact ⟨[], [], rfl, h⟩
    · rintro ⟨before, rest, heq, h⟩
      rwa [(List.nil_eq_append_iff.mp heq).2] at h
  | cons t text ih =>
    rw [matchFrom, Bool.or_eq_true, ih]
    constructor
    · rintro (h | ⟨before, rest, rfl, h⟩)
      · exact ⟨[], t :: text, rfl, h⟩
      · exact ⟨t :: before, rest, rfl, h⟩
    · rintro ⟨before, rest, heq, h⟩
      cases before with
      | nil => exact .inl (heq ▸ h)
      | cons x before =>
        obtain ⟨rfl, rfl⟩ := List.cons.inj heq
        exact .inr ⟨before, rest, rfl, h⟩

theorem matchFrom_matches {re text : List UInt8} :
    matchFrom re text = true ↔ (⟨false, (parse re).1, (parse re).2⟩ : Pattern).Matches text := by
  simp only [matchFrom_iff, matchhere_iff, Begins, Pattern.Matches]
  constructor
  · rintro ⟨before, rest, rfl, part, behind, rfl, hpart, hlast⟩
    exact ⟨before, part, behind, (List.append_assoc ..).symm, hpart, nofun, hlast⟩
  · rintro ⟨before, part, behind, rfl, hpart, -, hlast⟩
    exact ⟨before, part ++ behind, List.append_assoc .., part, behind, rfl, hpart, hlast⟩

/-- **The matcher is right.** It finds a line if and only if a part of the line is in the language
    that the pattern spells, at the ends of the line that the pattern is tied to. -/
theorem matchText_iff (re text : List UInt8) :
    matchText re text = true ↔ (patternOf re).Matches text := by
  cases re with
  | nil => exact matchFrom_matches
  | cons c re =>
    rw [matchText, patternOf]
    split
    · rw [matchhere_iff]
      constructor
      · rintro ⟨part, behind, rfl, hpart, hlast⟩
        exact ⟨[], part, behind, rfl, hpart, fun _ => rfl, hlast⟩
      · rintro ⟨before, part, behind, rfl, hpart, hfirst, hlast⟩
        exact ⟨part, behind, by rw [hfirst rfl, List.nil_append], hpart, hlast⟩
    · exact matchFrom_matches

/-! ## The loop over the input -/

/-- `strchr(p, '\n')` in the buffer: the line that it ends, and what follows. The search stops at the
    first 0. -/
def cutLine : List UInt8 → Option (List UInt8 × List UInt8)
  | [] => none
  | c :: buf =>
    if c = 0 then none
    else if c = newline then some ([], buf)
    else (cutLine buf).map fun r => (c :: r.1, r.2)

/-- The loop over the lines in the buffer: what is written, and what is moved to the front of the
    buffer. No line is shorter than its newline, so the length of the buffer is turns enough. -/
def lineLoop (pattern : List UInt8) : ℕ → List UInt8 → List (List UInt8) × List UInt8
  | 0, buf => ([], buf)
  | fuel + 1, buf =>
    match cutLine buf with
    | none => ([], buf)
    | some (line, rest) =>
      let (out, left) := lineLoop pattern fuel rest
      ((if matchText pattern line then [line ++ [newline]] else []) ++ out, left)

/-- `grep(pattern, fd)`: what is written, one string for each `write`. The bytes `held` are in the
    buffer already. The read number `i` returns as much as `cut i` lets it, at least one byte
    unless the file ends or it is asked for none. -/
def grep (pattern : List UInt8) (cut : ℕ → ℕ) :
    ℕ → ℕ → List UInt8 → List UInt8 → List (List UInt8)
  | 0, _, _, _ => []
  | fuel + 1, i, input, held =>
    let n := min (min (cut i + 1) (BUFSIZE - held.length - 1)) input.length
    if n = 0 then []
    else
      let buf := held ++ input.take n
      let (out, left) := lineLoop pattern buf.length buf
      out ++ grep pattern cut fuel (i + 1) (input.drop n) left

/-! ### The lines of the input -/

/-- The lines that end with a newline; the first of them begins with `front`. -/
def linesFrom (front : List UInt8) : List UInt8 → List (List UInt8)
  | [] => []
  | c :: input => if c = newline then front :: linesFrom [] input else linesFrom (front ++ [c]) input

/-- A line that the buffer can hold and that `strchr` can see the end of -/
def Fits (line : List UInt8) : Prop := line.length + 1 < BUFSIZE ∧ (0 : UInt8) ∉ line

instance (line : List UInt8) : Decidable (Fits line) :=
  inferInstanceAs (Decidable (line.length + 1 < BUFSIZE ∧ (0 : UInt8) ∉ line))

/-- What `grep` should write of these lines. -/
def selected (pattern : List UInt8) (lines : List (List UInt8)) : List (List UInt8) :=
  ((lines.takeWhile fun line => Fits line).filter (matchText pattern)).map (· ++ [newline])

/-- Neither a 0 nor a newline -/
def Plain (l : List UInt8) : Prop := ∀ c ∈ l, c ≠ 0 ∧ c ≠ newline

theorem linesFrom_plain {l : List UInt8} (h : Plain l) (front input : List UInt8) :
    linesFrom front (l ++ input) = linesFrom (front ++ l) input := by
  induction l generalizing front with
  | nil => rw [List.nil_append, List.append_nil]
  | cons c l ih =>
    obtain ⟨hc, hl⟩ := List.forall_mem_cons.mp h
    rw [List.cons_append, linesFrom, if_neg hc.2, ih hl, List.append_assoc, List.singleton_append]

theorem linesFrom_newline (front input : List UInt8) :
    linesFrom front (newline :: input) = front :: linesFrom [] input := by
  rw [linesFrom, if_pos rfl]

/-- The first line begins with `front`. -/
theorem linesFrom_front (front input : List UInt8) :
    linesFrom front input = [] ∨ ∃ more rest, linesFrom front input = (front ++ more) :: rest := by
  induction input generalizing front with
  | nil => exact .inl rfl
  | cons c input ih =>
    rw [linesFrom]
    split
    · exact .inr ⟨[], linesFrom [] input, by rw [List.append_nil]⟩
    · rcases ih (front ++ [c]) with h | ⟨more, rest, h⟩
      · exact .inl h
      · exact .inr ⟨c :: more, rest, by rw [h, List.append_assoc, List.singleton_append]⟩

/-- Nothing is selected behind the beginning of a line that does not fit. -/
theorem selected_stuck {pattern front : List UInt8} (h : ∀ more, ¬ Fits (front ++ more)) (input : List UInt8) :
    selected pattern (linesFrom front input) = [] := by
  rcases linesFrom_front front input with heq | ⟨more, rest, heq⟩
  · rw [heq]
    rfl
  · rw [heq, selected, List.takeWhile_cons_of_neg (by simpa using h more)]
    rfl

theorem selected_cons {pattern line : List UInt8} (h : Fits line) (lines : List (List UInt8)) :
    selected pattern (line :: lines) =
      (if matchText pattern line then [line ++ [newline]] else []) ++ selected pattern lines := by
  unfold selected
  rw [List.takeWhile_cons_of_pos (by simpa using h), List.filter_cons]
  split <;> rfl

/-! ### The buffer -/

theorem cutLine_some {buf line rest : List UInt8} (h : cutLine buf = some (line, rest)) :
    buf = line ++ newline :: rest ∧ Plain line := by
  induction buf generalizing line with
  | nil => cases h
  | cons c buf ih =>
    rw [cutLine] at h
    split at h
    · cases h
    next hzero =>
    split at h
    · next hnew =>
      cases h
      exact ⟨by rw [hnew]; rfl, List.forall_mem_nil _⟩
    · next hnew =>
      obtain ⟨⟨line', rest'⟩, hcut, heq⟩ := Option.map_eq_some_iff.mp h
      cases heq
      obtain ⟨rfl, hplain⟩ := ih hcut
      exact ⟨rfl, List.forall_mem_cons.mpr ⟨⟨hzero, hnew⟩, hplain⟩⟩

/-- A 0 that no newline precedes hides the rest of the buffer. -/
theorem cutLine_none {buf : List UInt8} (h : cutLine buf = none) :
    Plain buf ∨ ∃ front rest, buf = front ++ 0 :: rest ∧ Plain front := by
  induction buf with
  | nil => exact .inl (List.forall_mem_nil _)
  | cons c buf ih =>
    rw [cutLine] at h
    split at h
    · next hzero => exact .inr ⟨[], buf, by rw [hzero]; rfl, List.forall_mem_nil _⟩
    next hzero =>
    split at h
    · cases h
    next hnew =>
    rcases ih (Option.map_eq_none_iff.mp h) with hplain | ⟨front, rest, rfl, hplain⟩
    · exact .inl (List.forall_mem_cons.mpr ⟨⟨hzero, hnew⟩, hplain⟩)
    · exact .inr ⟨c :: front, rest, rfl, List.forall_mem_cons.mpr ⟨⟨hzero, hnew⟩, hplain⟩⟩

theorem cutLine_zero {front : List UInt8} (h : Plain front) (rest : List UInt8) :
    cutLine (front ++ 0 :: rest) = none := by
  induction front with
  | nil => rfl
  | cons c front ih =>
    obtain ⟨hc, hfront⟩ := List.forall_mem_cons.mp h
    rw [List.cons_append, cutLine, if_neg hc.1, if_neg hc.2, ih hfront, Option.map_none]

/-- **The loop over the lines in the buffer** writes what is selected of them, and leaves the
    beginning of a line, or a 0 that it cannot see past. -/
theorem lineLoop_selected {pattern : List UInt8} {fuel : ℕ} {buf : List UInt8} (hfuel : buf.length ≤ fuel)
    (hsize : buf.length < BUFSIZE) (rest : List UInt8) :
    let r := lineLoop pattern fuel buf
    r.2.length ≤ buf.length ∧
      (Plain r.2 ∧ selected pattern (linesFrom [] (buf ++ rest)) =
          r.1 ++ selected pattern (linesFrom r.2 rest) ∨
        (∃ front behind, r.2 = front ++ 0 :: behind ∧ Plain front) ∧
          selected pattern (linesFrom [] (buf ++ rest)) = r.1) := by
  induction fuel generalizing buf with
  | zero =>
    obtain rfl := List.eq_nil_of_length_eq_zero (Nat.le_zero.mp hfuel)
    exact ⟨le_rfl, .inl ⟨List.forall_mem_nil _, rfl⟩⟩
  | succ fuel ih =>
    rw [lineLoop]
    cases hcut : cutLine buf with
    | none =>
      refine ⟨le_rfl, (cutLine_none hcut).imp (fun hplain => ⟨hplain, ?_⟩) fun hzero => ⟨hzero, ?_⟩⟩
      · rw [linesFrom_plain hplain]
        rfl
      · obtain ⟨front, behind, rfl, hplain⟩ := hzero
        -- the 0 is in the line that is being collected
        rw [List.append_assoc, linesFrom_plain hplain, List.nil_append, List.cons_append, linesFrom,
          if_neg (by decide)]
        exact selected_stuck (fun more hfits => hfits.2 (by simp)) _
    | some r =>
      obtain ⟨line, tail⟩ := r
      obtain ⟨rfl, hplain⟩ := cutLine_some hcut
      rw [List.length_append, List.length_cons] at hfuel hsize
      have hline : Fits line := ⟨by omega, fun hzero => (hplain 0 hzero).1 rfl⟩
      obtain ⟨hlen, hcases⟩ := @ih tail (by omega) (by omega)
      dsimp only
      refine ⟨?_, ?_⟩
      · rw [List.length_append, List.length_cons]
        omega
      rw [List.append_assoc, List.cons_append, linesFrom_plain hplain, List.nil_append, linesFrom_newline,
        selected_cons hline]
      refine hcases.imp (fun ⟨hleft, heq⟩ => ⟨hleft, ?_⟩) fun ⟨hleft, heq⟩ => ⟨hleft, ?_⟩
      · rw [heq, List.append_assoc]
      · rw [heq]

/-- A 0 in the buffer is never passed. -/
theorem grep_hidden {pattern front : List UInt8} {cut : ℕ → ℕ} (h : Plain front) {fuel i : ℕ}
    {input behind : List UInt8} : grep pattern cut fuel i input (front ++ 0 :: behind) = [] := by
  induction fuel generalizing i input behind with
  | zero => rfl
  | succ fuel ih =>
    rw [grep]
    split
    · rfl
    rw [List.append_assoc, List.cons_append]
    have hloop : ∀ k rest, lineLoop pattern k (front ++ 0 :: rest) = ([], front ++ 0 :: rest) := by
      intro k rest
      cases k with
      | zero => rfl
      | succ k => rw [lineLoop, cutLine_zero h]
    dsimp only
    rw [hloop]
    exact ih

/-- **However the input comes in pieces**, `grep` writes the lines that match, in their order, up to
    the first line that is too long for the buffer or has a 0 in it. A last line without a
    newline is not looked at. As many turns as there are bytes are enough. -/
theorem grep_output (pattern : List UInt8) (cut : ℕ → ℕ) (input : List UInt8) (spare i : ℕ) :
    grep pattern cut (input.length + spare) i input [] = selected pattern (linesFrom [] input) := by
  have hrun : ∀ (fuel i : ℕ) (input held : List UInt8), input.length ≤ fuel → Plain held →
      held.length < BUFSIZE → grep pattern cut fuel i input held = selected pattern (linesFrom held input) := by
    intro fuel
    induction fuel with
    | zero =>
      intro i input held hfuel _ _
      obtain rfl := List.eq_nil_of_length_eq_zero (Nat.le_zero.mp hfuel)
      rfl
    | succ fuel ih =>
      intro i input held hfuel hplain hsize
      rw [grep]
      generalize hn : min (min (cut i + 1) (BUFSIZE - held.length - 1)) input.length = n
      dsimp only
      split
      · next hzero =>
        -- nothing is read: the input ends, or the buffer is full
        rcases Nat.eq_zero_or_pos input.length with hnil | hpos
        · obtain rfl := List.eq_nil_of_length_eq_zero hnil
          rfl
        · refine (selected_stuck (fun more hfits => ?_) input).symm
          have hlen := hfits.1
          rw [List.length_append] at hlen
          omega
      next hpos =>
      have hbuf : (held ++ input.take n).length < BUFSIZE := by
        rw [List.length_append, List.length_take]
        omega
      have hinput : selected pattern (linesFrom held input) =
          selected pattern (linesFrom [] (held ++ input.take n ++ input.drop n)) := by
        rw [List.append_assoc, List.take_append_drop, linesFrom_plain hplain, List.nil_append]
      rw [hinput]
      obtain ⟨hlen, ⟨hleft, heq⟩ | ⟨⟨front, behind, hleft, hfront⟩, heq⟩⟩ :=
        lineLoop_selected le_rfl hbuf (input.drop n)
      · rw [heq, ih _ _ _ (by rw [List.length_drop]; omega) hleft (hlen.trans_lt hbuf)]
      · rw [heq, hleft, grep_hidden hfront, List.append_nil]
  exact hrun _ i input [] (Nat.le_add_right _ _) (List.forall_mem_nil _) (by decide)

end Xv6.User.Grep
