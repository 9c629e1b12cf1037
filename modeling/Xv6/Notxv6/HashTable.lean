import Mathlib
import Xv6.Lib.TransitionSystem
import Xv6.Lib.LinkedList

/-!
# The Concurrent Hash Table

`put`, `insert` and `get` of `notxv6/ph.c`, where any threads put any keys, one load or store at a
time. Keys come from `random()` and are not negative.

- `Inv`: the chains, who inserts into them, and the puts that have taken effect so far;
- `Inv.step`: what a step does to the chains, and when it leaves each key in its chain once;
- `puts_serializable_iff`: at the end each key is there once, with the value of its last put, if and only if no
  put inserts a key that another one has inserted in the meantime; in any case each key is found.

The presence of a key is checked outside the lock (`put_twice`).
-/

namespace Xv6.Notxv6.HashTable

open Xv6.Lib

def NBUCKET : ℕ := 5

/-! ## Threads -/

/-- Where a thread is in `put(key, value)`, with `e` and the arguments of `insert` -/
inductive Pc where
  /-- between two calls -/
  | idle
  /-- `e = table[i]` -/
  | loadHead (key : ℕ) (value : ℤ)
  /-- `e->key == key` -/
  | compare (key : ℕ) (value : ℤ) (e : ℕ)
  /-- `e = e->next` -/
  | loadNext (key : ℕ) (value : ℤ) (e : ℕ)
  /-- `e->value = value` -/
  | update (key : ℕ) (value : ℤ) (e : ℕ)
  /-- `pthread_mutex_lock(lock+i)` -/
  | lock (key : ℕ) (value : ℤ)
  /-- the argument `table[i]` of `insert` -/
  | loadTable (key : ℕ) (value : ℤ)
  /-- `malloc` -/
  | alloc (key : ℕ) (value : ℤ) (n : Option ℕ)
  /-- `e->key = key` -/
  | setKey (key : ℕ) (value : ℤ) (n : Option ℕ) (e : ℕ)
  /-- `e->value = value` in `insert` -/
  | setValue (key : ℕ) (value : ℤ) (n : Option ℕ) (e : ℕ)
  /-- `e->next = n` -/
  | setNext (key : ℕ) (value : ℤ) (n : Option ℕ) (e : ℕ)
  /-- `*p = e` -/
  | link (key : ℕ) (value : ℤ) (e : ℕ)
  /-- `pthread_mutex_unlock(lock+i)` -/
  | unlock (key : ℕ)
  deriving DecidableEq

/-- A call `put(key, value)` -/
structure Put where
  key : ℕ
  value : ℤ
  deriving DecidableEq

/-- The entries (`struct entry`, of which `fresh` have been allocated), the table and its locks, and the threads
    with the calls that they still have to make. The log says in which order puts have taken effect. -/
structure State (τ : Type*) where
  key : ℕ → ℕ
  value : ℕ → ℤ
  next : ℕ → Option ℕ
  fresh : ℕ
  table : ℕ → Option ℕ
  locked : ℕ → Option τ
  pc : τ → Pc
  todo : τ → List Put
  log : List (τ × Put)

variable {τ : Type*} [DecidableEq τ]

def State.goto (s : State τ) (t : τ) (pc : Pc) : State τ := { s with pc := Function.update s.pc t pc }

/-- One step of a thread -/
def step (s : State τ) (t : τ) : Option (State τ) :=
  match s.pc t with
  | .idle =>
    match s.todo t with
    | [] => none
    | c :: cs => some { s.goto t (.loadHead c.key c.value) with todo := Function.update s.todo t cs }
  | .loadHead key value =>
    match s.table (key % NBUCKET) with
    | none => some (s.goto t (.lock key value))
    | some e => some (s.goto t (.compare key value e))
  | .compare key value e =>
    if s.key e = key then some (s.goto t (.update key value e)) else some (s.goto t (.loadNext key value e))
  | .loadNext key value e =>
    match s.next e with
    | none => some (s.goto t (.lock key value))
    | some e' => some (s.goto t (.compare key value e'))
  | .update key value e =>
    some { s.goto t .idle with value := Function.update s.value e value, log := s.log ++ [(t, ⟨key, value⟩)] }
  | .lock key value =>
    if s.locked (key % NBUCKET) = none then
      some { s.goto t (.loadTable key value) with locked := Function.update s.locked (key % NBUCKET) (some t) }
    else none
  | .loadTable key value => some (s.goto t (.alloc key value (s.table (key % NBUCKET))))
  | .alloc key value n => some { s.goto t (.setKey key value n s.fresh) with fresh := s.fresh + 1 }
  | .setKey key value n e =>
    some { s.goto t (.setValue key value n e) with key := Function.update s.key e key }
  | .setValue key value n e =>
    some { s.goto t (.setNext key value n e) with value := Function.update s.value e value }
  | .setNext key value n e => some { s.goto t (.link key value e) with next := Function.update s.next e n }
  | .link key value e =>
    some { s.goto t (.unlock key) with
      table := Function.update s.table (key % NBUCKET) (some e), log := s.log ++ [(t, ⟨key, value⟩)] }
  | .unlock key => some { s.goto t .idle with locked := Function.update s.locked (key % NBUCKET) none }

/-- The threads with their calls, before any of them -/
def boot (puts : τ → List Put) : State τ :=
  ⟨fun _ => 0, fun _ => 0, fun _ => none, 0, fun _ => none, fun _ => none, fun _ => .idle, puts, []⟩

def table (puts : τ → List Put) : System (State τ) τ where
  init s := s = boot puts
  step := step

/-- The loop of `get` over the entries from `e` on -/
def getFrom (s : State τ) (key : ℕ) : ℕ → Option ℕ → Option ℕ
  | 0, _ => none
  | _ + 1, none => none
  | turns + 1, some e => if s.key e = key then some e else getFrom s key turns (s.next e)

/-- `get(key)`; a chain is no longer than all entries. -/
def get (s : State τ) (key : ℕ) : Option ℕ := getFrom s key s.fresh (s.table (key % NBUCKET))

/-! ## What is wanted -/

/-- The puts of a thread in an order of all puts -/
def putsOf (log : List (τ × Put)) (t : τ) : List Put := (log.filter (·.1 = t)).map Prod.snd

/-- The value that the last put of a key has put -/
def lastValue (log : List (τ × Put)) (key : ℕ) : Option ℤ :=
  ((log.filter (·.2.key = key)).getLast?).map (·.2.value)

/-- **The puts have been done one after another**: each key is in its chain once, and has the value of its last put
    in an order of all puts that keeps the order of each thread. -/
structure Good (puts : τ → List Put) (s : State τ) : Prop where
  once : ∀ i xs, Chain s.next (s.table i) xs → (xs.map s.key).Nodup
  serial : ∃ log, (∀ t, putsOf log t = puts t) ∧ ∀ key, (get s key).map s.value = lastValue log key

/-- When a put links its entry, the key is not in the table: nobody has inserted it since the search. -/
def Unraced (s : State τ) (t : τ) : Prop := ∀ key value e, s.pc t = .link key value e → get s key = none

/-! ## The invariant -/

namespace Pc

/-- The entry that the thread has allocated and not linked yet -/
def own : Pc → Option ℕ
  | setKey _ _ _ e | setValue _ _ _ e | setNext _ _ _ e | link _ _ e => some e
  | idle | loadHead _ _ | compare _ _ _ | loadNext _ _ _ | update _ _ _ | lock _ _ | loadTable _ _ | alloc _ _ _
  | unlock _ => none

/-- The bucket that the thread has locked -/
def holds : Pc → Option ℕ
  | loadTable key _ | alloc key _ _ | setKey key _ _ _ | setValue key _ _ _ | setNext key _ _ _ | link key _ _
  | unlock key => some (key % NBUCKET)
  | idle | loadHead _ _ | compare _ _ _ | loadNext _ _ _ | update _ _ _ | lock _ _ => none

/-- The call that has begun and has not taken effect -/
def current : Pc → Option Put
  | loadHead key value | compare key value _ | loadNext key value _ | update key value _ | lock key value
  | loadTable key value | alloc key value _ | setKey key value _ _ | setValue key value _ _ | setNext key value _ _
  | link key value _ => some ⟨key, value⟩
  | idle | unlock _ => none

end Pc

/-- What a thread relies on, where `L` are the chains -/
def At (s : State τ) (L : ℕ → List ℕ) : Pc → Prop
  | .idle | .loadHead _ _ | .lock _ _ | .loadTable _ _ | .unlock _ => True
  | .compare key _ e | .loadNext key _ e => e ∈ L (key % NBUCKET)
  | .update key _ e => e ∈ L (key % NBUCKET) ∧ s.key e = key
  | .alloc key _ n | .setKey key _ n _ => n = s.table (key % NBUCKET)
  | .setValue key _ n e => n = s.table (key % NBUCKET) ∧ s.key e = key
  | .setNext key value n e => n = s.table (key % NBUCKET) ∧ s.key e = key ∧ s.value e = value
  | .link key value e => s.next e = s.table (key % NBUCKET) ∧ s.key e = key ∧ s.value e = value

/-- **What holds throughout a run**, where `L` are the chains -/
structure Inv (puts : τ → List Put) (s : State τ) (L : ℕ → List ℕ) : Prop where
  chain : ∀ i, Chain s.next (s.table i) (L i)
  nodup : ∀ i, (L i).Nodup
  bucket : ∀ i, ∀ e ∈ L i, e < s.fresh ∧ s.key e % NBUCKET = i
  locked : ∀ t i, s.locked i = some t ↔ (s.pc t).holds = some i
  own : ∀ t e, (s.pc t).own = some e → e < s.fresh ∧ ∀ i, e ∉ L i
  alone : ∀ t u e, (s.pc t).own = some e → (s.pc u).own = some e → u = t
  at_ : ∀ t, At s L (s.pc t)
  program : ∀ t, puts t = putsOf s.log t ++ ((s.pc t).current.toList ++ s.todo t)
  found : ∀ c ∈ s.log, ∃ e ∈ L (c.2.key % NBUCKET), s.key e = c.2.key

/-- Each key is in its chain once. -/
def Once (s : State τ) (L : ℕ → List ℕ) : Prop := ∀ i, ((L i).map s.key).Nodup

/-- Each entry has the value of the last put of its key. -/
def Last (s : State τ) (L : ℕ → List ℕ) : Prop := ∀ i, ∀ e ∈ L i, lastValue s.log (s.key e) = some (s.value e)

section Steps

variable {puts : τ → List Put} {s s' : State τ} {L L' : ℕ → List ℕ} {t u : τ} {pc : Pc} {i key e : ℕ} {value : ℤ}
  {a : Option ℕ} {xs : List ℕ} {log : List (τ × Put)} {c : Put}

/-! ### Logs and chains -/

theorem putsOf_append : putsOf (log ++ [(t, c)]) u = if t = u then putsOf log u ++ [c] else putsOf log u := by
  unfold putsOf
  rw [List.filter_append, List.map_append]
  by_cases h : t = u
  · simp [h]
  · simp [h]

omit [DecidableEq τ] in
theorem lastValue_append :
    lastValue (log ++ [(t, c)]) key = if c.key = key then some c.value else lastValue log key := by
  unfold lastValue
  rw [List.filter_append]
  by_cases h : c.key = key
  · simp [h]
  · simp [h]

omit [DecidableEq τ] in
theorem getFrom_eq {turns : ℕ} (h : Chain s.next a xs) (hturns : xs.length ≤ turns) :
    getFrom s key turns a = xs.find? fun e => s.key e = key := by
  induction xs generalizing a turns with
  | nil =>
    obtain rfl := Seg.nil_iff.mp h
    cases turns <;> rfl
  | cons x xs ih =>
    obtain ⟨rfl, hrest⟩ := Seg.cons_iff.mp h
    obtain ⟨turns, rfl⟩ := Nat.exists_eq_add_of_le' ((Nat.succ_le_succ (Nat.zero_le _)).trans hturns)
    have hrec := ih hrest (Nat.le_of_succ_le_succ hturns)
    rw [getFrom, hrec, List.find?_cons]
    by_cases hx : s.key x = key
    · simp [hx]
    · simp [hx]

omit [DecidableEq τ] in
/-- A thread relies on what it owns, on what it has locked, and on the keys in the chains. -/
theorem At.congr (h : At s L pc) (hmem : ∀ i, ∀ x ∈ L i, x ∈ L' i ∧ s'.key x = s.key x)
    (hown : ∀ x, pc.own = some x → s'.key x = s.key x ∧ s'.value x = s.value x ∧ s'.next x = s.next x)
    (htable : ∀ i, pc.holds = some i → s'.table i = s.table i) : At s' L' pc := by
  cases pc with
  | idle | loadHead _ _ | lock _ _ | loadTable _ _ | unlock _ => trivial
  | compare key value e | loadNext key value e => exact (hmem _ e h).1
  | update key value e => exact ⟨(hmem _ e h.1).1, (hmem _ e h.1).2.trans h.2⟩
  | alloc key value n | setKey key value n e => exact h.trans (htable _ rfl).symm
  | setValue key value n e => exact ⟨h.1.trans (htable _ rfl).symm, (hown e rfl).1.trans h.2⟩
  | setNext key value n e =>
    exact ⟨h.1.trans (htable _ rfl).symm, (hown e rfl).1.trans h.2.1, (hown e rfl).2.1.trans h.2.2⟩
  | link key value e =>
    exact ⟨(hown e rfl).2.2.trans (h.1.trans (htable _ rfl).symm), (hown e rfl).1.trans h.2.1,
      (hown e rfl).2.1.trans h.2.2⟩

/-- A chain is no longer than all entries, so that `get` comes to its end. -/
theorem Inv.get_eq (h : Inv puts s L) (key : ℕ) :
    get s key = (L (key % NBUCKET)).find? fun e => s.key e = key := by
  refine getFrom_eq (h.chain _) ?_
  have hsub : L (key % NBUCKET) ⊆ List.range s.fresh := fun e he => List.mem_range.mpr (h.bucket _ e he).1
  exact (List.length_range (n := s.fresh)) ▸ ((h.nodup _).subperm hsub).length_le

/-! ### What a step leaves of the invariant -/

/-- A thread goes on with an entry that no other one has. -/
theorem alone_update {f : τ → Pc} {p : Pc}
    (h : ∀ t u e, (f t).own = some e → (f u).own = some e → u = t)
    (hp : ∀ u e, p.own = some e → (f u).own = some e → u = t) (t' u : τ) (e : ℕ)
    (ht' : (Function.update f t p t').own = some e) (hu : (Function.update f t p u).own = some e) : u = t' := by
  by_cases hut : u = t
  · by_cases ht : t' = t
    · exact hut.trans ht.symm
    · subst hut
      rw [Function.update_self] at hu
      rw [Function.update_of_ne ht] at ht'
      exact (hp t' e hu ht').symm
  · rw [Function.update_of_ne hut] at hu
    by_cases ht : t' = t
    · subst ht
      rw [Function.update_self] at ht'
      exact hp u e ht' hu
    · rw [Function.update_of_ne ht] at ht'
      exact h t' u e ht' hu

/-- A thread goes on without touching the entries. -/
theorem Inv.goto (h : Inv puts s L) {p : Pc} {locked' : ℕ → Option τ} {todo' : τ → List Put}
    (hself : ∀ i, locked' i = some t ↔ p.holds = some i)
    (hother : ∀ u, u ≠ t → ∀ i, locked' i = some u ↔ s.locked i = some u) (hown : p.own = none) (hat : At s L p)
    (hprogram : p.current.toList ++ todo' t = (s.pc t).current.toList ++ s.todo t)
    (htodo : ∀ u, u ≠ t → todo' u = s.todo u) :
    Inv puts { s with pc := Function.update s.pc t p, locked := locked', todo := todo' } L := by
  have hsame : ∀ {pc}, At s L pc →
      At { s with pc := Function.update s.pc t p, locked := locked', todo := todo' } L pc :=
    fun h => h.congr (fun _ _ hx => ⟨hx, rfl⟩) (fun _ _ => ⟨rfl, rfl, rfl⟩) fun _ _ => rfl
  refine ⟨h.chain, h.nodup, h.bucket, ?_, ?_, ?_, ?_, ?_, h.found⟩
  · exact (Function.forall_update_iff s.pc fun u pc => ∀ i, locked' i = some u ↔ pc.holds = some i).mpr
      ⟨hself, fun u hu i => (hother u hu i).trans (h.locked u i)⟩
  · refine (Function.forall_update_iff s.pc fun _ pc => ∀ e, pc.own = some e → e < s.fresh ∧ ∀ i, e ∉ L i).mpr
      ⟨fun e he => ?_, fun u _ => h.own u⟩
    nomatch hown.symm.trans he
  · exact alone_update h.alone fun u e he => nomatch hown.symm.trans he
  · exact (Function.forall_update_iff s.pc fun _ pc => At _ L pc).mpr ⟨hsame hat, fun u _ => hsame (h.at_ u)⟩
  · refine (Function.forall_update_iff s.pc fun u pc => puts u = putsOf s.log u ++ (pc.current.toList ++ todo' u)).mpr
      ⟨?_, fun u hu => ?_⟩
    · rw [hprogram]
      exact h.program t
    · rw [htodo u hu]
      exact h.program u

/-- A thread goes on with the lock that it holds. -/
theorem Inv.move (h : Inv puts s L) {p : Pc} (hholds : p.holds = (s.pc t).holds) (hown : p.own = none)
    (hat : At s L p) (hcurrent : p.current = (s.pc t).current) : Inv puts (s.goto t p) L := by
  refine h.goto (fun i => ?_) (fun _ _ _ => Iff.rfl) hown hat ?_ fun _ _ => rfl
  · rw [hholds]
    exact h.locked t i
  · rw [hcurrent]

theorem Inv.lock (h : Inv puts s L) (hpc : s.pc t = .lock key value) (hfree : s.locked (key % NBUCKET) = none) :
    Inv puts { s.goto t (.loadTable key value) with
      locked := Function.update s.locked (key % NBUCKET) (some t) } L := by
  refine h.goto ?_ (fun u hu i => ?_) rfl trivial (by rw [hpc]; rfl) fun _ _ => rfl
  · refine (Function.forall_update_iff s.locked fun i o => o = some t ↔ some (key % NBUCKET) = some i).mpr
      ⟨by simp, fun i hi => iff_of_false (fun hl => ?_) fun heq => hi (Option.some.inj heq).symm⟩
    have hheld := (h.locked t i).mp hl
    rw [hpc] at hheld
    nomatch hheld
  · by_cases hi : i = key % NBUCKET
    · subst hi
      rw [Function.update_self, hfree]
      exact iff_of_false (fun heq => hu (Option.some.inj heq).symm) nofun
    · rw [Function.update_of_ne hi]

theorem Inv.unlock (h : Inv puts s L) (hpc : s.pc t = .unlock key) :
    Inv puts { s.goto t .idle with locked := Function.update s.locked (key % NBUCKET) none } L := by
  have hself : s.locked (key % NBUCKET) = some t := (h.locked t _).mpr (hpc ▸ rfl)
  refine h.goto ?_ (fun u hu i => ?_) rfl trivial (by rw [hpc]; rfl) fun _ _ => rfl
  · refine (Function.forall_update_iff s.locked fun i o => o = some t ↔ none = some i).mpr
      ⟨by simp, fun i hi => iff_of_false (fun hl => ?_) nofun⟩
    have hheld := (h.locked t i).mp hl
    rw [hpc] at hheld
    exact hi (Option.some.inj hheld).symm
  · by_cases hi : i = key % NBUCKET
    · subst hi
      rw [Function.update_self, hself]
      exact iff_of_false nofun fun heq => hu (Option.some.inj heq).symm
    · rw [Function.update_of_ne hi]

/-- A thread writes the entry `e`, which no other one knows. -/
theorem Inv.fill (h : Inv puts s L) {p : Pc} {key' : ℕ → ℕ} {value' : ℕ → ℤ} {next' : ℕ → Option ℕ} {fresh' : ℕ}
    (hfresh : s.fresh ≤ fresh') (he : e < fresh') (hout : ∀ i, e ∉ L i) (halone : ∀ u, (s.pc u).own = some e → u = t)
    (hkeep : ∀ x, x ≠ e → key' x = s.key x ∧ value' x = s.value x ∧ next' x = s.next x)
    (hown : p.own = some e) (hholds : p.holds = (s.pc t).holds) (hcurrent : p.current = (s.pc t).current)
    (hat : At { s with key := key', value := value', next := next' } L p) :
    Inv puts { s.goto t p with key := key', value := value', next := next', fresh := fresh' } L := by
  have hmem : ∀ i, ∀ x ∈ L i, x ≠ e := fun i x hx heq => hout i (heq ▸ hx)
  have hother : ∀ u, u ≠ t → ∀ x, (s.pc u).own = some x → x ≠ e := fun u hu x hx heq => hu (halone u (heq ▸ hx))
  refine ⟨fun i => ?_, h.nodup, fun i x hx => ?_, ?_, ?_, ?_, ?_, ?_, fun c hc => ?_⟩
  · -- the entry is in no chain, so that the chains are as before
    exact (h.chain i).congr fun x hx => (hkeep x (hmem i x hx)).2.2
  · have hb := h.bucket i x hx
    exact ⟨hb.1.trans_le hfresh, (congrArg (· % NBUCKET) (hkeep x (hmem i x hx)).1).trans hb.2⟩
  · refine (Function.forall_update_iff s.pc fun u pc => ∀ i, s.locked i = some u ↔ pc.holds = some i).mpr
      ⟨?_, fun u _ => h.locked u⟩
    rw [hholds]
    exact h.locked t
  · refine (Function.forall_update_iff s.pc fun _ pc => ∀ x, pc.own = some x → x < fresh' ∧ ∀ i, x ∉ L i).mpr
      ⟨fun x hx => ?_, fun u _ x hx => ⟨(h.own u x hx).1.trans_le hfresh, (h.own u x hx).2⟩⟩
    obtain rfl := Option.some.inj (hown.symm.trans hx)
    exact ⟨he, hout⟩
  · exact alone_update h.alone fun u x hx hux => halone u (hux.trans (hx.symm.trans hown))
  · refine (Function.forall_update_iff s.pc fun _ pc => At _ L pc).mpr
      ⟨hat.congr (fun _ _ hx => ⟨hx, rfl⟩) (fun _ _ => ⟨rfl, rfl, rfl⟩) fun _ _ => rfl, fun u hu => ?_⟩
    exact (h.at_ u).congr (fun i x hx => ⟨hx, (hkeep x (hmem i x hx)).1⟩) (fun x hx => hkeep x (hother u hu x hx))
      fun _ _ => rfl
  · refine (Function.forall_update_iff s.pc fun u pc => puts u = putsOf s.log u ++ (pc.current.toList ++ s.todo u)).mpr
      ⟨?_, fun u _ => h.program u⟩
    rw [hcurrent]
    exact h.program t
  · obtain ⟨x, hx, hkey⟩ := h.found c hc
    exact ⟨x, hx, (hkeep x (hmem _ x hx)).1.trans hkey⟩

/-- The call of a thread takes effect. -/
theorem Inv.effect (h : Inv puts s L) (hc : (s.pc t).current = some c) {p : Pc} (hp : p.current = none) (u : τ) :
    puts u = putsOf (s.log ++ [(t, c)]) u ++ ((Function.update s.pc t p u).current.toList ++ s.todo u) := by
  have hprogram := h.program u
  rw [putsOf_append]
  by_cases hu : u = t
  · subst hu
    rw [if_pos rfl, Function.update_self, hp]
    rw [hc] at hprogram
    rw [hprogram]
    simp
  · rw [if_neg (Ne.symm hu), Function.update_of_ne hu]
    exact hprogram

/-- An entry that is in a chain gets a new value. -/
theorem Inv.update (h : Inv puts s L) (hpc : s.pc t = .update key value e) :
    Inv puts { s.goto t .idle with
      value := Function.update s.value e value, log := s.log ++ [(t, ⟨key, value⟩)] } L := by
  have hat := h.at_ t
  rw [hpc] at hat
  obtain ⟨he, hkey⟩ := hat
  refine ⟨h.chain, h.nodup, h.bucket, ?_, ?_, ?_, ?_, h.effect (hpc ▸ rfl) rfl, fun c hc => ?_⟩
  · exact (Function.forall_update_iff s.pc fun u pc => ∀ i, s.locked i = some u ↔ pc.holds = some i).mpr
      ⟨fun i => (h.locked t i).trans (hpc ▸ Iff.rfl), fun u _ => h.locked u⟩
  · exact (Function.forall_update_iff s.pc fun _ pc => ∀ x, pc.own = some x → x < s.fresh ∧ ∀ i, x ∉ L i).mpr
      ⟨nofun, fun u _ => h.own u⟩
  · exact alone_update h.alone nofun
  · refine (Function.forall_update_iff s.pc fun _ pc => At _ L pc).mpr ⟨trivial, fun u _ => ?_⟩
    -- whoever fills an entry fills another one
    refine (h.at_ u).congr (fun _ _ hx => ⟨hx, rfl⟩) (fun x hx => ⟨rfl, ?_, rfl⟩) fun _ _ => rfl
    exact Function.update_of_ne (fun heq => (h.own u x hx).2 _ (heq ▸ he)) _ _
  · rcases List.mem_append.mp hc with hc | hc
    · exact h.found c hc
    · obtain rfl := List.mem_singleton.mp hc
      exact ⟨e, he, hkey⟩

/-- **A new entry is linked** in front of its chain. No other thread that holds the lock is about to do the same. -/
theorem Inv.link (h : Inv puts s L) (hpc : s.pc t = .link key value e) :
    Inv puts { s.goto t (.unlock key) with
        table := Function.update s.table (key % NBUCKET) (some e), log := s.log ++ [(t, ⟨key, value⟩)] }
      (Function.update L (key % NBUCKET) (e :: L (key % NBUCKET))) := by
  have hat := h.at_ t
  rw [hpc] at hat
  obtain ⟨hnext, hkey, hvalue⟩ := hat
  obtain ⟨hfresh, hout⟩ := h.own t e (hpc ▸ rfl)
  have hsub : ∀ i, ∀ x ∈ L i, x ∈ Function.update L (key % NBUCKET) (e :: L (key % NBUCKET)) i :=
    (Function.forall_update_iff L fun i xs => ∀ x ∈ L i, x ∈ xs).mpr
      ⟨fun x hx => List.mem_cons_of_mem _ hx, fun _ _ _ hx => hx⟩
  refine ⟨fun i => ?_, ?_, ?_, ?_, ?_, ?_, ?_, h.effect (hpc ▸ rfl) rfl, fun c hc => ?_⟩
  · by_cases hi : i = key % NBUCKET
    · subst hi
      simp only [Function.update_self]
      exact (h.chain _).push hnext
    · simp only [Function.update_of_ne hi]
      exact h.chain i
  · exact (Function.forall_update_iff L fun _ xs => xs.Nodup).mpr
      ⟨List.nodup_cons.mpr ⟨hout _, h.nodup _⟩, fun i _ => h.nodup i⟩
  · refine (Function.forall_update_iff L fun i xs => ∀ x ∈ xs, x < s.fresh ∧ s.key x % NBUCKET = i).mpr
      ⟨fun x hx => ?_, fun i _ => h.bucket i⟩
    rcases List.mem_cons.mp hx with rfl | hx
    · exact ⟨hfresh, congrArg (· % NBUCKET) hkey⟩
    · exact h.bucket _ x hx
  · exact (Function.forall_update_iff s.pc fun u pc => ∀ i, s.locked i = some u ↔ pc.holds = some i).mpr
      ⟨fun i => (h.locked t i).trans (hpc ▸ Iff.rfl), fun u _ => h.locked u⟩
  · refine (Function.forall_update_iff s.pc fun _ pc => ∀ x, pc.own = some x → x < s.fresh ∧
      ∀ i, x ∉ Function.update L (key % NBUCKET) (e :: L (key % NBUCKET)) i).mpr ⟨nofun, fun u hu x hx => ?_⟩
    obtain ⟨hxfresh, hxout⟩ := h.own u x hx
    refine ⟨hxfresh, (Function.forall_update_iff L fun _ xs => x ∉ xs).mpr ⟨fun hmem => ?_, fun i _ => hxout i⟩⟩
    rcases List.mem_cons.mp hmem with rfl | hmem
    · exact hu (h.alone t u x (hpc ▸ rfl) hx)
    · exact hxout _ hmem
  · exact alone_update h.alone nofun
  · refine (Function.forall_update_iff s.pc fun _ pc => At _ _ pc).mpr ⟨trivial, fun u hu => ?_⟩
    refine (h.at_ u).congr (fun i x hx => ⟨hsub i x hx, rfl⟩) (fun _ _ => ⟨rfl, rfl, rfl⟩) fun i hi => ?_
    -- the lock of this bucket is taken
    refine Function.update_of_ne (fun heq => hu ?_) _ _
    have hself : s.locked i = some t := (h.locked t i).mpr (hpc ▸ congrArg some heq.symm)
    exact Option.some.inj (((h.locked u i).mpr hi).symm.trans hself)
  · rcases List.mem_append.mp hc with hc | hc
    · obtain ⟨x, hx, hxkey⟩ := h.found c hc
      exact ⟨x, hsub _ x hx, hxkey⟩
    · obtain rfl := List.mem_singleton.mp hc
      exact ⟨e, by simp, hkey⟩

/-! ### Keys and values -/

/-- Linking an entry leaves each key in its chain once if and only if the key was in no chain. -/
theorem Inv.once_link (h : Inv puts s L) (hpc : s.pc t = .link key value e) :
    (∀ i, ((Function.update L (key % NBUCKET) (e :: L (key % NBUCKET)) i).map s.key).Nodup) ↔
      Once s L ∧ Unraced s t := by
  have hat := h.at_ t
  rw [hpc] at hat
  have hfree : Unraced s t ↔ key ∉ (L (key % NBUCKET)).map s.key := by
    have hget : get s key = none ↔ key ∉ (L (key % NBUCKET)).map s.key := by
      rw [h.get_eq, List.find?_eq_none, List.mem_map, not_exists]
      simp
    refine ⟨fun hun => hget.mp (hun key value e hpc), fun hkey key' value' e' hpc' => ?_⟩
    cases hpc.symm.trans hpc'
    exact hget.mpr hkey
  rw [Function.forall_update_iff L fun _ xs => (xs.map s.key).Nodup, List.map_cons, List.nodup_cons, hat.2.1, hfree]
  refine ⟨fun ⟨⟨hkey, hone⟩, hrest⟩ => ⟨fun i => ?_, hkey⟩, fun ⟨honce, hkey⟩ => ⟨⟨hkey, honce _⟩, fun i _ => honce i⟩⟩
  by_cases hi : i = key % NBUCKET
  · rw [hi]
    exact hone
  · exact hrest i hi

/-- The entry of a key is unique, so that the last put of the key has written it. -/
theorem Inv.last_update (h : Inv puts s L) (hpc : s.pc t = .update key value e) (honce : Once s L) (hl : Last s L) :
    ∀ i, ∀ x ∈ L i, lastValue (s.log ++ [(t, ⟨key, value⟩)]) (s.key x) = some (Function.update s.value e value x) := by
  have hat := h.at_ t
  rw [hpc] at hat
  obtain ⟨he, hkey⟩ := hat
  intro i x hx
  rw [lastValue_append]
  by_cases hxkey : key = s.key x
  · have hi : i = key % NBUCKET := (h.bucket i x hx).2.symm.trans (congrArg (· % NBUCKET) hxkey.symm)
    have hxe : x = e := List.inj_on_of_nodup_map (honce i) hx (hi ▸ he) (hxkey.symm.trans hkey.symm)
    rw [if_pos hxkey, hxe, Function.update_self]
  · have hxe : x ≠ e := fun hxe => hxkey (hkey.symm.trans (congrArg s.key hxe.symm))
    rw [if_neg hxkey, Function.update_of_ne hxe]
    exact hl i x hx

theorem Inv.last_link (h : Inv puts s L) (hpc : s.pc t = .link key value e) (hun : Unraced s t) (hl : Last s L) :
    ∀ i, ∀ x ∈ Function.update L (key % NBUCKET) (e :: L (key % NBUCKET)) i,
      lastValue (s.log ++ [(t, ⟨key, value⟩)]) (s.key x) = some (s.value x) := by
  have hat := h.at_ t
  rw [hpc] at hat
  have hget := hun key value e hpc
  rw [h.get_eq, List.find?_eq_none] at hget
  have hold : ∀ i, ∀ x ∈ L i, lastValue (s.log ++ [(t, ⟨key, value⟩)]) (s.key x) = some (s.value x) := by
    intro i x hx
    rw [lastValue_append, if_neg, hl i x hx]
    -- an entry with this key would be in the bucket
    intro hxkey
    have hi : i = key % NBUCKET := (h.bucket i x hx).2.symm.trans (congrArg (· % NBUCKET) hxkey.symm)
    exact hget x (hi ▸ hx) (decide_eq_true hxkey.symm)
  refine (Function.forall_update_iff L fun _ xs => ∀ x ∈ xs, lastValue _ (s.key x) = some (s.value x)).mpr
    ⟨fun x hx => ?_, fun i _ => hold i⟩
  rcases List.mem_cons.mp hx with rfl | hx
  · rw [lastValue_append, if_pos hat.2.1.symm, hat.2.2]
  · exact hold _ x hx

/-- A step that links nothing leaves the keys in the chains. -/
theorem Inv.keep (h : Inv puts s' L) (hpc : ∀ key value e, s.pc t ≠ .link key value e)
    (hkey : ∀ i, ∀ x ∈ L i, s'.key x = s.key x) (hlast : Once s L → Last s L → Last s' L) :
    ∃ L', Inv puts s' L' ∧ (Once s' L' ↔ Once s L ∧ Unraced s t) ∧
      (Once s L → Unraced s t → Last s L → Last s' L') := by
  refine ⟨L, h, ?_, fun honce _ => hlast honce⟩
  have hun : Unraced s t := fun key value e hlink => absurd hlink (hpc key value e)
  rw [and_iff_left hun]
  exact forall_congr' fun i => by rw [List.map_congr_left (hkey i)]

/-! ### Steps -/

/-- **What a step does**: each key stays in its chain once if and only if the step links no entry for a key that
    has been inserted in the meantime. -/
theorem Inv.step (h : Inv puts s L) (hs : HashTable.step s t = some s') :
    ∃ L', Inv puts s' L' ∧ (Once s' L' ↔ Once s L ∧ Unraced s t) ∧
      (Once s L → Unraced s t → Last s L → Last s' L') := by
  have hat := h.at_ t
  have hcell : ∀ {e i x}, (s.pc t).own = some e → x ∈ L i → x ≠ e :=
    fun he hx heq => (h.own t _ he).2 _ (heq ▸ hx)
  unfold HashTable.step at hs
  cases hpc : s.pc t with
  | idle =>
    simp only [hpc] at hs
    cases htodo : s.todo t with
    | nil =>
      rw [htodo] at hs
      nomatch hs
    | cons c cs =>
      rw [htodo] at hs
      cases hs
      refine Inv.keep (h.goto (fun i => ?_) (fun _ _ _ => Iff.rfl) rfl trivial ?_
        fun u hu => Function.update_of_ne hu _ _) (by simp [hpc]) (fun _ _ _ => rfl) fun _ hl => hl
      · exact (h.locked t i).trans (hpc ▸ Iff.rfl)
      · rw [Function.update_self, hpc, htodo]
        rfl
  | loadHead key value =>
    -- the search begins at an entry of the chain, or finds it empty
    simp only [hpc] at hs
    cases hhead : s.table (key % NBUCKET) with
    | none =>
      rw [hhead] at hs
      cases hs
      exact Inv.keep (h.move (hpc ▸ rfl) rfl trivial (hpc ▸ rfl)) (by simp [hpc]) (fun _ _ _ => rfl) fun _ hl => hl
    | some e =>
      rw [hhead] at hs
      cases hs
      obtain ⟨ys, hys, -⟩ := Chain.eq_cons (hhead ▸ h.chain (key % NBUCKET))
      have he : e ∈ L (key % NBUCKET) := by
        rw [hys]
        exact List.mem_cons_self
      exact Inv.keep (h.move (hpc ▸ rfl) rfl he (hpc ▸ rfl)) (by simp [hpc]) (fun _ _ _ => rfl) fun _ hl => hl
  | compare key value e =>
    simp only [hpc] at hs hat
    split at hs
    · next hkey =>
      cases hs
      exact Inv.keep (h.move (hpc ▸ rfl) rfl ⟨hat, hkey⟩ (hpc ▸ rfl)) (by simp [hpc]) (fun _ _ _ => rfl)
        fun _ hl => hl
    · cases hs
      exact Inv.keep (h.move (hpc ▸ rfl) rfl hat (hpc ▸ rfl)) (by simp [hpc]) (fun _ _ _ => rfl) fun _ hl => hl
  | loadNext key value e =>
    simp only [hpc] at hs hat
    cases hnext : s.next e with
    | none =>
      rw [hnext] at hs
      cases hs
      exact Inv.keep (h.move (hpc ▸ rfl) rfl trivial (hpc ▸ rfl)) (by simp [hpc]) (fun _ _ _ => rfl) fun _ hl => hl
    | some e' =>
      rw [hnext] at hs
      cases hs
      -- and goes on in the same chain
      obtain ⟨xs, ys, hL⟩ := List.append_of_mem hat
      have he' : e' ∈ L (key % NBUCKET) := by
        have hhead : some e' = ys.head? := hnext.symm.trans (Chain.next_eq (hL ▸ h.chain (key % NBUCKET)))
        rw [hL]
        simp [List.mem_of_mem_head? (Option.mem_def.mpr hhead.symm)]
      exact Inv.keep (h.move (hpc ▸ rfl) rfl he' (hpc ▸ rfl)) (by simp [hpc]) (fun _ _ _ => rfl) fun _ hl => hl
  | update key value e =>
    simp only [hpc] at hs
    cases hs
    exact Inv.keep (h.update hpc) (by simp [hpc]) (fun _ _ _ => rfl) (h.last_update hpc)
  | lock key value =>
    simp only [hpc] at hs
    split at hs
    · next hfree =>
      cases hs
      exact Inv.keep (h.lock hpc hfree) (by simp [hpc]) (fun _ _ _ => rfl) fun _ hl => hl
    · nomatch hs
  | loadTable key value =>
    simp only [hpc] at hs
    cases hs
    exact Inv.keep (h.move (hpc ▸ rfl) rfl rfl (hpc ▸ rfl)) (by simp [hpc]) (fun _ _ _ => rfl) fun _ hl => hl
  | alloc key value n =>
    simp only [hpc] at hs hat
    cases hs
    refine Inv.keep (h.fill (Nat.le_succ _) (Nat.lt_succ_self _) (fun i hmem => ?_) (fun u hu => ?_)
      (fun _ _ => ⟨rfl, rfl, rfl⟩) rfl (hpc ▸ rfl) (hpc ▸ rfl) hat) (by simp [hpc]) (fun _ _ _ => rfl) fun _ hl => hl
    · exact Nat.lt_irrefl _ (h.bucket i _ hmem).1
    · exact absurd (h.own u _ hu).1 (Nat.lt_irrefl _)
  | setKey key value n e =>
    -- nobody else knows the entry yet
    simp only [hpc] at hs hat
    cases hs
    have hown : (s.pc t).own = some e := hpc ▸ rfl
    have hkeep : ∀ x, x ≠ e → Function.update s.key e key x = s.key x := fun x hx => Function.update_of_ne hx _ _
    refine Inv.keep (h.fill le_rfl (h.own t e hown).1 (h.own t e hown).2 (fun u => h.alone t u e hown)
      (fun x hx => ⟨hkeep x hx, rfl, rfl⟩) rfl (hpc ▸ rfl) (hpc ▸ rfl) ⟨hat, Function.update_self _ _ _⟩)
      (by simp [hpc]) (fun i x hx => hkeep x (hcell hown hx)) fun _ hl i x hx => ?_
    exact (congrArg (lastValue s.log) (hkeep x (hcell hown hx))).trans (hl i x hx)
  | setValue key value n e =>
    simp only [hpc] at hs hat
    cases hs
    have hown : (s.pc t).own = some e := hpc ▸ rfl
    have hkeep : ∀ x, x ≠ e → Function.update s.value e value x = s.value x :=
      fun x hx => Function.update_of_ne hx _ _
    refine Inv.keep (h.fill le_rfl (h.own t e hown).1 (h.own t e hown).2 (fun u => h.alone t u e hown)
      (fun x hx => ⟨rfl, hkeep x hx, rfl⟩) rfl (hpc ▸ rfl) (hpc ▸ rfl) ⟨hat.1, hat.2, Function.update_self _ _ _⟩)
      (by simp [hpc]) (fun _ _ _ => rfl) fun _ hl i x hx => ?_
    exact (hl i x hx).trans (congrArg some (hkeep x (hcell hown hx)).symm)
  | setNext key value n e =>
    simp only [hpc] at hs hat
    cases hs
    have hown : (s.pc t).own = some e := hpc ▸ rfl
    exact Inv.keep (h.fill le_rfl (h.own t e hown).1 (h.own t e hown).2 (fun u => h.alone t u e hown)
      (fun x hx => ⟨rfl, rfl, Function.update_of_ne hx _ _⟩) rfl (hpc ▸ rfl) (hpc ▸ rfl)
      ⟨(Function.update_self _ _ _).trans hat.1, hat.2⟩) (by simp [hpc]) (fun _ _ _ => rfl) fun _ hl => hl
  | link key value e =>
    simp only [hpc] at hs
    cases hs
    exact ⟨_, h.link hpc, h.once_link hpc, fun _ hun => h.last_link hpc hun⟩
  | unlock key =>
    simp only [hpc] at hs
    cases hs
    exact Inv.keep (h.unlock hpc) (by simp [hpc]) (fun _ _ _ => rfl) fun _ hl => hl

end Steps

/-! ## Runs -/

theorem boot_inv (puts : τ → List Put) : Inv puts (boot puts) fun _ => [] where
  chain _ := .nil none
  nodup _ := List.nodup_nil
  bucket _ := nofun
  locked _ _ := iff_of_false nofun nofun
  own _ _ := nofun
  alone _ _ _ := nofun
  at_ _ := trivial
  program _ := rfl
  found _ := nofun

/-- What a run does to the chains: a key that is twice in its chain stays there. -/
theorem Inv.run {puts : τ → List Put} {s s' : State τ} {L : ℕ → List ℕ} {as : List τ} (h : Inv puts s L)
    (hrun : (table puts).run s as = some s') :
    ∃ L', Inv puts s' L' ∧ (Once s' L' ↔ Once s L ∧ (table puts).Takes Unraced s as) ∧
      (Once s' L' → Last s L → Last s' L') := by
  -- on the schedule, with the chains that the steps so far have made
  induction as generalizing s L with
  | nil =>
    cases hrun
    exact ⟨L, h, ⟨fun ho => ⟨ho, trivial⟩, And.left⟩, fun _ => id⟩
  | cons a as ih =>
    obtain ⟨s₁, hs, hrun⟩ := System.run_cons.mp hrun
    obtain ⟨L₁, h₁, honce₁, hlast₁⟩ := h.step hs
    obtain ⟨L', h', honce', hlast'⟩ := ih h₁ hrun
    have htakes : (table puts).Takes Unraced s (a :: as) ↔ Unraced s a ∧ (table puts).Takes Unraced s₁ as := by
      refine ⟨fun ht => ht s₁ hs, fun ht s₂ hs₂ => ?_⟩
      cases hs.symm.trans hs₂
      exact ht
    refine ⟨L', h', ?_, fun ho hl => ?_⟩
    · rw [honce', honce₁, htakes, and_assoc]
    · obtain ⟨honce, hun⟩ := honce₁.mp (honce'.mp ho).1
      exact hlast' ho (hlast₁ honce hun hl)

/-- **When all puts are done, every key that was put is found; and the puts have been done one after another if and
    only if none has inserted a key that another one has inserted since its search.** -/
theorem puts_serializable_iff (puts : τ → List Put) (as : List τ) (s : State τ)
    (hrun : (table puts).run (boot puts) as = some s) (hdone : ∀ t, s.pc t = .idle ∧ s.todo t = []) :
    (Good puts s ↔ (table puts).Takes Unraced (boot puts) as) ∧
      ∀ t, ∀ c ∈ puts t, ∃ e, get s c.key = some e ∧ s.key e = c.key := by
  obtain ⟨L, h, honce, hlast⟩ := (boot_inv puts).run hrun
  have hputs : ∀ t, putsOf s.log t = puts t := by
    intro t
    have hprogram := h.program t
    rw [(hdone t).1, (hdone t).2] at hprogram
    simpa [Pc.current] using hprogram.symm
  have hfind : ∀ {e key}, get s key = some e → e ∈ L (key % NBUCKET) ∧ s.key e = key := by
    intro e key hget
    rw [h.get_eq] at hget
    have hkey := List.find?_some (p := fun e => decide (s.key e = key)) hget
    exact ⟨List.mem_of_find?_eq_some hget, of_decide_eq_true hkey⟩
  have hfound : ∀ c ∈ s.log, ∃ e, get s c.2.key = some e := by
    intro c hc
    obtain ⟨x, hx, hkey⟩ := h.found c hc
    rw [h.get_eq, ← Option.isSome_iff_exists, List.find?_isSome]
    exact ⟨x, hx, decide_eq_true hkey⟩
  constructor
  · have hboot : Once (boot puts) fun _ => [] := fun _ => List.nodup_nil
    rw [and_iff_right hboot] at honce
    rw [← honce]
    refine ⟨fun hgood i => hgood.once i _ (h.chain i), fun ho => ⟨fun i xs hxs => ?_, s.log, hputs, fun key => ?_⟩⟩
    · exact (h.chain i).unique hxs ▸ ho i
    · cases hget : get s key with
      | some e =>
        obtain ⟨he, rfl⟩ := hfind hget
        exact (hlast ho (fun _ => nofun) _ e he).symm
      | none =>
        -- a key that was put has been found
        have hnone : s.log.filter (·.2.key = key) = [] := by
          refine List.filter_eq_nil_iff.mpr fun c hc hkey => ?_
          obtain ⟨e, he⟩ := hfound c hc
          rw [of_decide_eq_true hkey, hget] at he
          nomatch he
        rw [lastValue, hnone]
        rfl
  · intro t c hc
    rw [← hputs t, putsOf] at hc
    obtain ⟨⟨u, c'⟩, hmem, rfl⟩ := List.mem_map.mp hc
    obtain ⟨e, he⟩ := hfound _ (List.mem_of_mem_filter hmem)
    exact ⟨e, he, (hfind he).2⟩

/-- Two threads that put the same key -/
def two : Bool → List Put
  | false => [⟨6, 10⟩]
  | true => [⟨6, 20⟩]

/-- `Unraced` as a test -/
def unraced (s : State τ) (t : τ) : Bool :=
  match s.pc t with
  | .link key _ _ => (get s key).isNone
  | _ => true

omit [DecidableEq τ] in
theorem unraced_of_test (s : State τ) (t : τ) (h : unraced s t = true) : Unraced s t := by
  intro key value e hpc
  simp only [unraced, hpc] at h
  exact Option.isNone_iff_eq_none.mp h

/-- The state that a run ends in, if it ends with all puts done -/
theorem exists_done {r : Option (State Bool)} (p : State Bool → Bool)
    (h : r.any (fun s => decide (∀ t, s.pc t = .idle ∧ s.todo t = []) && p s) = true) :
    ∃ s, r = some s ∧ (∀ t, s.pc t = .idle ∧ s.todo t = []) ∧ p s = true := by
  obtain ⟨s, hs, htest⟩ := (Option.any_eq_true _ r).mp h
  obtain ⟨hdone, hp⟩ := Bool.and_eq_true_iff.mp htest
  exact ⟨s, hs, of_decide_eq_true hdone, hp⟩

/-- The second thread begins when the first one is done. -/
theorem puts_serializable_two : ∃ s, (table two).run (boot two) (List.replicate 10 false ++ List.replicate 4 true) =
    some s ∧ Good two s := by
  obtain ⟨s, hs, hdone, -⟩ := exists_done (r := (table two).runUnder unraced (boot two)
    (List.replicate 10 false ++ List.replicate 4 true)) (fun _ => true) (by decide +kernel)
  have hrun := System.run_of_runUnder hs
  exact ⟨s, hrun, (puts_serializable_iff two _ s hrun hdone).1.mpr (System.takes_of_runUnder unraced_of_test hs)⟩

/-- **Both threads find the bucket empty**, so that each inserts an entry for the key. -/
theorem put_twice : ∃ s, (table two).run (boot two)
    ([false, false, true, true] ++ List.replicate 8 false ++ List.replicate 8 true) = some s ∧
      (∀ t, s.pc t = .idle ∧ s.todo t = []) ∧ ¬ Good two s := by
  obtain ⟨s, hs, hdone, htest⟩ := exists_done (fun s => decide (s.table 1 = some 1 ∧ s.next 1 = some 0 ∧
    s.next 0 = none ∧ s.key 1 = s.key 0)) (r := (table two).run (boot two)
      ([false, false, true, true] ++ List.replicate 8 false ++ List.replicate 8 true)) (by decide +kernel)
  obtain ⟨hhead, hnext, hlast, hkey⟩ := of_decide_eq_true htest
  refine ⟨s, hs, hdone, fun hgood => ?_⟩
  have hchain : Chain s.next (s.table 1) [1, 0] := by
    rw [hhead]
    refine .cons ?_
    rw [hnext]
    refine .cons ?_
    rw [hlast]
    exact .nil none
  have hnodup := hgood.once 1 _ hchain
  simp [hkey] at hnodup

end Xv6.Notxv6.HashTable
