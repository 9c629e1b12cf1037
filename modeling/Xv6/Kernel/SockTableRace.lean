import Mathlib
import Xv6.Lib.TransitionSystem
import Xv6.Lib.LinkedList
import Xv6.Kernel.SockTable

/-!
# The Socket Table under Concurrent Calls

The calls of `SockTable` at the level of single loads and stores, on any number of CPUs.
Each function starts with `struct spinlock lock = locks[key]` and acquires that *copy* on
its own stack, so nobody ever waits for anybody.

- `At`: what holds of a call at each of its accesses to shared memory, in terms of the
  table that the completed calls have left;
- `serializable`: in runs in which a call enters the part between `acquire` and `release`
  only while no other call is in that part for the same bucket, or all of them are `get`,
  the calls take effect one after another, in the order in which they return;
- `insert_lost`: two `add` that overlap lose a socket.
-/

namespace Xv6.Kernel.SockTableRace

open Xv6.Lib
open Xv6.Kernel.SockTable (Sock Call Result)

/-! ## Memory -/

/-- `struct spinlock` -/
structure SpinLock (τ : Type*) where
  locked : Bool
  cpu : Option τ

/-- `struct sock` -/
structure Cell where
  so : Sock
  next : Option ℕ

/-- A pointer to a pointer, as `sock_hashtable_remove` uses it -/
inductive Loc where
  /-- `&sockets[key]` -/
  | head (key : ℕ)
  /-- `&si->next` -/
  | next (si : ℕ)
  deriving DecidableEq

/-- Which access to shared memory comes next, with the local variables of the function. -/
inductive Pc where
  /-- `hash(si->lport)` -/
  | key
  -- `struct spinlock lock = locks[key]`
  | lockWord (key : ℕ)
  | lockCpu (key : ℕ) (locked : Bool)
  | acquire (key : ℕ)
  -- `sock_hashtable_add`: the loop, and the insertion
  | addHead (key : ℕ)
  | addPort (key pos : ℕ)
  | addRaddr (key pos : ℕ)
  | addRport (key pos : ℕ)
  | addParent (key pos : ℕ)
  | addNext (key pos : ℕ)
  | addLoad (key : ℕ)
  | addLink (key : ℕ) (head : Option ℕ)
  | addStore (key : ℕ)
  -- `sock_hashtable_remove`: `*pos` in the condition, in the comparison and in the advance
  | remTest (key : ℕ) (pos : Loc)
  | remCompare (key : ℕ) (pos : Loc)
  | remAdvance (key : ℕ) (pos : Loc)
  | remNext (key : ℕ) (pos : Loc)
  | remStore (key : ℕ) (pos : Loc) (next : Option ℕ)
  -- `sock_hashtable_update`
  | updHead (key : ℕ)
  | updNext (key pos : ℕ)
  | updRaddr (key : ℕ)
  | updRport (key : ℕ)
  -- `sock_hashtable_get`
  | getHead (key : ℕ)
  | getPort (key pos : ℕ) (backup : Option ℕ)
  | getRaddr (key pos : ℕ) (backup : Option ℕ)
  | getRport (key pos : ℕ) (backup : Option ℕ)
  | getRaddr0 (key pos : ℕ) (backup : Option ℕ)
  | getRport0 (key pos : ℕ) (backup : Option ℕ)
  | getNext (key pos : ℕ) (backup : Option ℕ)
  /-- `release(&lock)` -/
  | release (key : ℕ) (res : Result)
  deriving DecidableEq

/-- A CPU, and the call that it runs with the copy of the lock -/
inductive Task (τ : Type*) where
  | idle
  | run (c : Call) (lock : SpinLock τ) (pc : Pc)

structure State (τ : Type*) where
  sockets : ℕ → Option ℕ
  cell : ℕ → Cell
  locks : ℕ → SpinLock τ
  task : τ → Task τ
  /-- The sockets that have been set up by `sockalloc` or `sockaccept` -/
  made : ℕ → Bool
  /-- The calls that have returned, in this order, with their results -/
  done : List (Call × Result)

variable {τ : Type*}

namespace State

variable (s : State τ)

def setTask [DecidableEq τ] (t : τ) (k : Task τ) : State τ := { s with task := Function.update s.task t k }

def setCell (si : ℕ) (x : Cell) : State τ := { s with cell := Function.update s.cell si x }

/-- `*pos` -/
def load : Loc → Option ℕ
  | .head key => s.sockets key
  | .next si => (s.cell si).next

/-- `*pos = v` -/
def store (pos : Loc) (v : Option ℕ) : State τ :=
  match pos with
  | .head key => { s with sockets := Function.update s.sockets key v }
  | .next si => s.setCell si { s.cell si with next := v }

end State

/-- The first access behind `acquire` -/
def entry (key : ℕ) : Call → Pc
  | .add _ _ => .addHead key
  | .remove _ => .remTest key (.head key)
  | .update _ _ _ => .updHead key
  | .get _ _ _ => .getHead key

/-- The top of the loop of `sock_hashtable_add` -/
def addLoop (key : ℕ) : Option ℕ → Pc
  | none => .addLoad key
  | some pos => .addPort key pos

/-- The top of the loop of `sock_hashtable_update`: it compares pointers. -/
def updLoop (key si : ℕ) : Option ℕ → Pc
  | none => .release key (.ret false)
  | some pos => if pos = si then .updRaddr key else .updNext key pos

/-- The top of the loop of `sock_hashtable_get` -/
def getLoop (key : ℕ) (backup : Option ℕ) : Option ℕ → Pc
  | none => .release key (.found backup)
  | some pos => .getPort key pos backup

/-- What a load leads to: the next access, with the copy of the lock. A call that would
    go through a null pointer has no next access. -/
def loads (s : State τ) (t : τ) (lock : SpinLock τ) : Call → Pc → Option (SpinLock τ × Pc)
  | .add si _, .key | .remove si, .key | .update si _ _, .key =>
    some (lock, .lockWord (SockTable.hash (s.cell si).so.lport))
  | .get lport _ _, .key => some (lock, .lockWord (SockTable.hash lport))
  | _, .lockWord key => some (lock, .lockCpu key (s.locks key).locked)
  | _, .lockCpu key locked => some (⟨locked, (s.locks key).cpu⟩, .acquire key)
  | c, .acquire key => if lock.locked then none else some (⟨true, some t⟩, entry key c)
  | .add _ _, .addHead key => some (lock, addLoop key (s.sockets key))
  | .add _ so, .addPort key pos =>
    some (lock, if (s.cell pos).so.lport = so.lport then .addRaddr key pos else .addNext key pos)
  | .add si so, .addRaddr key pos =>
    some (lock, if (s.cell si).so.raddr = so.raddr then .addRport key pos else .addNext key pos)
  | .add si so, .addRport key pos =>
    some (lock,
      if (s.cell si).so.rport = so.rport then
        if so.raddr = 0 ∧ so.rport = 0 then .addParent key pos else .release key (.ret false)
      else .addNext key pos)
  | .add si _, .addParent key pos =>
    some (lock, if (s.cell si).so.parent then .addNext key pos else .release key (.ret false))
  | .add _ _, .addNext key pos => some (lock, addLoop key (s.cell pos).next)
  | .add _ _, .addLoad key => some (lock, .addLink key (s.sockets key))
  | .remove _, .remTest key pos =>
    some (lock, if s.load pos = none then .release key (.ret false) else .remCompare key pos)
  | .remove si, .remCompare key pos =>
    some (lock, if s.load pos = some si then .remNext key pos else .remAdvance key pos)
  | .remove _, .remAdvance key pos => (s.load pos).map fun q => (lock, .remTest key (.next q))
  | .remove si, .remNext key pos => some (lock, .remStore key pos (s.cell si).next)
  | .update si _ _, .updHead key => some (lock, updLoop key si (s.sockets key))
  | .update si _ _, .updNext key pos => some (lock, updLoop key si (s.cell pos).next)
  | .get _ _ _, .getHead key => some (lock, getLoop key none (s.sockets key))
  | .get lport _ _, .getPort key pos backup =>
    some (lock,
      if (s.cell pos).so.lport = lport then .getRaddr key pos backup else .getNext key pos backup)
  | .get _ raddr _, .getRaddr key pos backup =>
    some (lock,
      if (s.cell pos).so.raddr = raddr then .getRport key pos backup
      else if backup = none then .getRaddr0 key pos backup else .getNext key pos backup)
  | .get _ _ rport, .getRport key pos backup =>
    some (lock,
      if (s.cell pos).so.rport = rport then .release key (.found (some pos))
      else if backup = none then .getRaddr0 key pos backup else .getNext key pos backup)
  | .get _ _ _, .getRaddr0 key pos backup =>
    some (lock,
      if (s.cell pos).so.raddr = 0 then .getRport0 key pos backup else .getNext key pos backup)
  | .get _ _ _, .getRport0 key pos backup =>
    some (lock,
      if (s.cell pos).so.rport = 0 then .getNext key pos (some pos) else .getNext key pos backup)
  | .get _ _ _, .getNext key pos backup => some (lock, getLoop key backup (s.cell pos).next)
  | _, _ => none

/-- What a store does, and the next access -/
def stores (s : State τ) : Call → Pc → Option (State τ × Pc)
  | .add si _, .addLink key head =>
    some (s.setCell si { s.cell si with next := head }, .addStore key)
  | .add si _, .addStore key => some (s.store (.head key) (some si), .release key (.ret true))
  | .remove _, .remStore key pos next => some (s.store pos next, .release key (.ret true))
  | .update si raddr _, .updRaddr key =>
    some (s.setCell si { s.cell si with so := { (s.cell si).so with raddr := raddr } },
      .updRport key)
  | .update si _ rport, .updRport key =>
    some (s.setCell si { s.cell si with so := { (s.cell si).so with rport := rport } },
      .release key (.ret true))
  | _, _ => none

inductive Act (τ : Type*) where
  /-- A call is made. -/
  | call (t : τ) (c : Call)
  /-- The next access of a CPU to shared memory, or its `acquire` or `release` -/
  | step (t : τ)

/-- A CPU takes its next step. -/
def stepTask [DecidableEq τ] (s : State τ) (t : τ) : Option (State τ) :=
  match s.task t with
  | .idle => none
  | .run c lock (.release _ res) =>
    if lock.locked ∧ lock.cpu = some t then
      some { s.setTask t .idle with done := s.done ++ [(c, res)] }
    else none
  | .run c lock pc =>
    match stores s c pc with
    | some (s', pc') => some (s'.setTask t (.run c lock pc'))
    | none => (loads s t lock c pc).map fun x => s.setTask t (.run c x.1 x.2)

/-- `sockalloc` and `sockaccept` set up a new socket and add it; the other calls get one
    that has been set up. -/
def startCall [DecidableEq τ] (s : State τ) (t : τ) (c : Call) : Option (State τ) :=
  match s.task t, c with
  | .idle, .add si so =>
    if s.made si then none
    else some { (s.setCell si { s.cell si with so := so }).setTask t (.run c ⟨false, none⟩ .key) with
      made := Function.update s.made si true }
  | .idle, .remove si | .idle, .update si _ _ =>
    if s.made si then some (s.setTask t (.run c ⟨false, none⟩ .key)) else none
  | .idle, .get _ _ _ => some (s.setTask t (.run c ⟨false, none⟩ .key))
  | .run _ _ _, _ => none

/-- `sockinit`: no chain has a socket, and no lock is held. -/
def system (τ : Type*) [DecidableEq τ] : System (State τ) (Act τ) where
  init s := (∀ key, s.sockets key = none ∧ (s.locks key).locked = false) ∧
    (∀ t, s.task t = .idle) ∧ (∀ si, s.made si = false) ∧ s.done = []
  step s
    | .call t c => startCall s t c
    | .step t => stepTask s t

/-! ## Serial orders -/

/-- The calls of `order`, made one after another on the table `S₀`, return the results given
    there and leave the table `S`. -/
inductive Serial (S₀ : SockTable.State) : List (Call × Result) → SockTable.State → Prop where
  | nil : Serial S₀ [] S₀
  | snoc {order : List (Call × Result)} {S : SockTable.State} (c : Call) :
      Serial S₀ order S → Serial S₀ (order ++ [(c, (S.exec c).2)]) (S.exec c).1

/-- The chain of bucket `k` has the sockets `xs`, with the triples that `f` gives them. -/
structure Shows (s : State τ) (k : ℕ) (xs : List ℕ) (f : ℕ → Sock) : Prop where
  chain : Chain (fun i => (s.cell i).next) (s.sockets k) xs
  agree : ∀ i ∈ xs, (s.cell i).so = f i

/-- The bucket that a call is working on, once it is behind `acquire` -/
def Pc.critical : Pc → Option ℕ
  | .key | .lockWord _ | .lockCpu _ _ | .acquire _ => none
  | .addHead k | .addPort k _ | .addRaddr k _ | .addRport k _ | .addParent k _ | .addNext k _
  | .addLoad k | .addLink k _ | .addStore k
  | .remTest k _ | .remCompare k _ | .remAdvance k _ | .remNext k _ | .remStore k _ _
  | .updHead k | .updNext k _ | .updRaddr k | .updRport k
  | .getHead k | .getPort k _ _ | .getRaddr k _ _ | .getRport k _ _ | .getRaddr0 k _ _
  | .getRport0 k _ _ | .getNext k _ _ | .release k _ => some k

/-- `sock_hashtable_get`, which stores nothing -/
def IsGet : Call → Prop
  | .get _ _ _ => True
  | _ => False

/-- What the lock of the bucket would have ensured: a call passes `acquire` only while no
    other call is behind it for the same bucket. Several `get` do not disturb each other. -/
def Exclusive (s : State τ) : Act τ → Prop
  | .call _ _ => True
  | .step t => ∀ c lock key, s.task t = .run c lock (.acquire key) →
      ∀ u c' lock' pc', u ≠ t → s.task u = .run c' lock' pc' → pc'.critical = some key →
        IsGet c ∧ IsGet c'

/-! ## What a call knows -/

section Scan

/-- No socket of the list makes `add` fail. -/
def Free (so : Sock) (l : List (ℕ × Sock)) : Prop := ∀ p ∈ l, p.2.lport = so.lport → so.Accepting

/-- `get` has passed these sockets, and has `backup`. -/
def Passed (lport : UInt16) (raddr : UInt32) (rport : UInt16) (l : List (ℕ × Sock))
    (backup : Option ℕ) : Prop :=
  (∀ p ∈ l, ¬ p.2.HasKey lport raddr rport) ∧
    backup = (l.find? fun p => p.2.HasKey lport 0 0).map Prod.fst

/-- The pointer behind the cells `l` of a chain -/
def Behind (key : ℕ) (l : List (ℕ × Sock)) (pos : Loc) : Prop :=
  (l = [] ∧ pos = .head key) ∨ ∃ pre x, l = pre ++ [x] ∧ pos = .next x.1

/-- What `get` returns for a bucket -/
def lookup (lport : UInt16) (raddr : UInt32) (rport : UInt16) (ys : List (ℕ × Sock)) : Option ℕ :=
  ((ys.find? fun p => p.2.HasKey lport raddr rport).or
    (ys.find? fun p => p.2.HasKey lport 0 0)).map Prod.fst

/-- How far a call is in the bucket `ys`. The part of the chain that it has passed does not
    hold what it looks for. -/
def Scan (ys : List (ℕ × Sock)) : Call → Pc → Prop
  | _, .key | _, .lockWord _ | _, .lockCpu _ _ | _, .acquire _ => True
  | .add _ so, pc =>
    match pc with
    | .addHead _ => True
    | .addPort _ pos => ∃ pre f suf, ys = pre ++ (pos, f) :: suf ∧ Free so pre
    | .addRaddr _ pos | .addRport _ pos =>
      ∃ pre f suf, ys = pre ++ (pos, f) :: suf ∧ Free so pre ∧ f.lport = so.lport
    | .addParent _ pos =>
      ∃ pre f suf, ys = pre ++ (pos, f) :: suf ∧ Free so pre ∧ f.lport = so.lport ∧
        so.raddr = 0 ∧ so.rport = 0
    | .addNext _ pos => ∃ pre f suf, ys = pre ++ (pos, f) :: suf ∧ Free so (pre ++ [(pos, f)])
    | .addLoad _ | .addStore _ => Free so ys
    | .addLink _ head => Free so ys ∧ head = (ys.map Prod.fst).head?
    | .release _ (.ret true) => Free so ys
    | .release _ (.ret false) => ¬ Free so ys
    | _ => False
  | .remove si, pc =>
    match pc with
    | .remTest key pos => ∃ pre suf, ys = pre ++ suf ∧ si ∉ pre.map Prod.fst ∧ Behind key pre pos
    | .remCompare key pos =>
      ∃ pre x suf, ys = pre ++ x :: suf ∧ si ∉ pre.map Prod.fst ∧ Behind key pre pos
    | .remAdvance key pos =>
      ∃ pre x suf, ys = pre ++ x :: suf ∧ si ∉ pre.map Prod.fst ∧ Behind key pre pos ∧ x.1 ≠ si
    | .remNext key pos =>
      ∃ pre x suf, ys = pre ++ x :: suf ∧ si ∉ pre.map Prod.fst ∧ Behind key pre pos ∧ x.1 = si
    | .remStore key pos next =>
      ∃ pre x suf, ys = pre ++ x :: suf ∧ si ∉ pre.map Prod.fst ∧ Behind key pre pos ∧ x.1 = si ∧
        next = (suf.map Prod.fst).head?
    | .release _ (.ret true) => si ∈ ys.map Prod.fst
    | .release _ (.ret false) => si ∉ ys.map Prod.fst
    | _ => False
  | .update si _ _, pc =>
    match pc with
    | .updHead _ => True
    | .updNext _ pos =>
      ∃ pre f suf, ys = pre ++ (pos, f) :: suf ∧ si ∉ (pre ++ [(pos, f)]).map Prod.fst
    | .updRaddr _ | .updRport _ | .release _ (.ret true) => si ∈ ys.map Prod.fst
    | .release _ (.ret false) => si ∉ ys.map Prod.fst
    | _ => False
  | .get lport raddr rport, pc =>
    match pc with
    | .getHead _ => True
    | .getPort _ pos backup =>
      ∃ pre f suf, ys = pre ++ (pos, f) :: suf ∧ Passed lport raddr rport pre backup
    | .getRaddr _ pos backup =>
      ∃ pre f suf, ys = pre ++ (pos, f) :: suf ∧ Passed lport raddr rport pre backup ∧
        f.lport = lport
    | .getRport _ pos backup =>
      ∃ pre f suf, ys = pre ++ (pos, f) :: suf ∧ Passed lport raddr rport pre backup ∧
        f.lport = lport ∧ f.raddr = raddr
    | .getRaddr0 _ pos backup =>
      ∃ pre f suf, ys = pre ++ (pos, f) :: suf ∧ Passed lport raddr rport pre backup ∧
        f.lport = lport ∧ ¬ f.HasKey lport raddr rport ∧ backup = none
    | .getRport0 _ pos backup =>
      ∃ pre f suf, ys = pre ++ (pos, f) :: suf ∧ Passed lport raddr rport pre backup ∧
        f.lport = lport ∧ ¬ f.HasKey lport raddr rport ∧ backup = none ∧ f.raddr = 0
    | .getNext _ pos backup =>
      ∃ pre f suf, ys = pre ++ (pos, f) :: suf ∧
        Passed lport raddr rport (pre ++ [(pos, f)]) backup
    | .release _ (.found r) => r = lookup lport raddr rport ys
    | _ => False

end Scan

/-- Bucket `k` of a table -/
def bucket (S : SockTable.State) (k : ℕ) : List (ℕ × Sock) := (S.chain k).map fun i => (i, S.sock i)

/-- What a call knows of the socket that it was given, and of its bucket -/
def Own (s : State τ) (S : SockTable.State) (key : Option ℕ) : Call → Prop
  | .add si so => s.made si = true ∧ (s.cell si).so = so ∧ (∀ k, si ∉ S.chain k) ∧
      ∀ k ∈ key, k = SockTable.hash so.lport
  | .remove si | .update si _ _ => s.made si = true ∧ ∀ k ∈ key, k = SockTable.hash (s.cell si).so.lport
  | .get lport _ _ => ∀ k ∈ key, k = SockTable.hash lport

/-- The bucket that a call has computed -/
def Pc.key? : Pc → Option ℕ
  | .key => none
  | .lockWord k | .lockCpu k _ | .acquire k => some k
  | pc => pc.critical

/-- What a call has made of its bucket before it returns -/
def Dirty (S : SockTable.State) : Call → Pc → Option (ℕ × List ℕ × (ℕ → Sock))
  | .add si so, .release k (.ret true) =>
    some (k, si :: S.chain k, Function.update S.sock si so)
  | .remove si, .release k (.ret true) => some (k, (S.chain k).erase si, S.sock)
  | .update si raddr _, .updRport k =>
    some (k, S.chain k, Function.update S.sock si { S.sock si with raddr := raddr })
  | .update si raddr rport, .release k (.ret true) =>
    some (k, S.chain k,
      Function.update S.sock si { S.sock si with raddr := raddr, rport := rport })
  | _, _ => none

/-- What holds of a call in progress -/
structure At (s : State τ) (S : SockTable.State) (c : Call) (pc : Pc) : Prop where
  own : Own s S pc.key? c
  scan : ∀ k, pc.critical = some k → Scan (bucket S k) c pc
  /-- The link of a new socket, stored before the head of the chain -/
  linked : ∀ si so k, c = .add si so → pc = .addStore k → (s.cell si).next = (S.chain k).head?
  dirty : ∀ k xs f, Dirty S c pc = some (k, xs, f) → Shows s k xs f

/-- The calls that have returned were made one after another, and left the table `S`. -/
structure Sim (S₀ S : SockTable.State) (s : State τ) : Prop where
  serial : Serial S₀ s.done S
  link : ∀ k, ∀ i ∈ S.chain k, SockTable.hash (S.sock i).lport = k ∧ s.made i = true ∧
    (s.cell i).so.lport = (S.sock i).lport
  nodup : ∀ k, (S.chain k).Nodup
  shows : ∀ k, (∀ t c lock pc, s.task t = .run c lock pc → ∀ d, Dirty S c pc = some d → d.1 ≠ k) →
    Shows s k (S.chain k) S.sock
  «at» : ∀ t c lock pc, s.task t = .run c lock pc → At s S c pc
  excl : ∀ t u c lock pc c' lock' pc' k, t ≠ u → s.task t = .run c lock pc →
    s.task u = .run c' lock' pc' → pc.critical = some k → pc'.critical = some k →
    IsGet c ∧ IsGet c'
  differ : ∀ t u si so lock pc so' lock' pc', t ≠ u → s.task t = .run (.add si so) lock pc →
    s.task u ≠ .run (.add si so') lock' pc'

/-! ## Reading a bucket -/

section Reading

variable {s : State τ} {S : SockTable.State} {k pos : ℕ} {f : Sock} {pre suf : List (ℕ × Sock)}

theorem map_fst_bucket (S : SockTable.State) (k : ℕ) : (bucket S k).map Prod.fst = S.chain k := by
  rw [bucket, List.map_map]
  exact List.map_id _

theorem mem_bucket {p : ℕ × Sock} : p ∈ bucket S k ↔ p.1 ∈ S.chain k ∧ S.sock p.1 = p.2 := by
  obtain ⟨i, f⟩ := p
  simp only [bucket, List.mem_map, Prod.mk.injEq]
  constructor
  · rintro ⟨j, hj, rfl, rfl⟩
    exact ⟨hj, rfl⟩
  · rintro ⟨hi, rfl⟩
    exact ⟨i, hi, rfl, rfl⟩

theorem chain_eq_of_bucket (h : bucket S k = pre ++ (pos, f) :: suf) :
    S.chain k = pre.map Prod.fst ++ pos :: suf.map Prod.fst := by
  rw [← map_fst_bucket, h]
  simp

theorem Shows.head (hs : Shows s k (S.chain k) S.sock) :
    s.sockets k = ((bucket S k).map Prod.fst).head? := by
  rw [map_fst_bucket]
  exact hs.chain.head_eq

theorem Shows.cell (hs : Shows s k (S.chain k) S.sock) (h : bucket S k = pre ++ (pos, f) :: suf) :
    (s.cell pos).so = f ∧ (s.cell pos).next = (suf.map Prod.fst).head? := by
  have hchain := chain_eq_of_bucket h
  have hmem : (pos, f) ∈ bucket S k := by simp [h]
  obtain ⟨hpos, hf⟩ := mem_bucket.mp hmem
  refine ⟨(hs.agree pos hpos).trans hf, ?_⟩
  have hc := hs.chain
  rw [hchain] at hc
  exact hc.next_eq

/-- The pointer behind the passed cells leads to the next one. -/
theorem Shows.load (hs : Shows s k (S.chain k) S.sock) {l : Loc} (h : bucket S k = pre ++ suf)
    (hl : Behind k pre l) : s.load l = (suf.map Prod.fst).head? := by
  rcases hl with ⟨rfl, rfl⟩ | ⟨pre', x, rfl, rfl⟩
  · rw [State.load, hs.head, h, List.nil_append]
  · rw [List.append_assoc, List.singleton_append] at h
    exact (hs.cell h).2

theorem Free.append {so : Sock} {l l' : List (ℕ × Sock)} :
    Free so (l ++ l') ↔ Free so l ∧ Free so l' := List.forall_mem_append

theorem Free.singleton {so : Sock} {p : ℕ × Sock} :
    Free so [p] ↔ (p.2.lport = so.lport → so.Accepting) := List.forall_mem_singleton

/-- `add` fails at a socket with its local port, unless it waits for a connection. -/
theorem Free.not_of_mem {so : Sock} {l l' : List (ℕ × Sock)} {p : ℕ × Sock}
    (hport : p.2.lport = so.lport) (hacc : ¬ so.Accepting) : ¬ Free so (l ++ p :: l') :=
  fun h => hacc (h p (by simp) hport)

end Reading

/-! ## Loads -/

section Loads

variable {s : State τ} {S : SockTable.State} {t : τ} {lock lock' : SpinLock τ} {pc pc' : Pc} {k : ℕ}

theorem key?_of_critical (h : pc.critical = some k) : pc.key? = some k := by
  cases pc <;> first | exact h | cases h

/-- The call has stored nothing at this access. -/
def Pc.Clean (pc : Pc) : Prop :=
  ∀ k, pc ≠ .release k (.ret true) ∧ pc ≠ .updRport k ∧ pc ≠ .addStore k

/-- The access is to the bucket `k`, and the call has stored nothing. -/
def Pc.Reads (pc : Pc) (k : ℕ) : Prop := pc.critical = some k ∧ pc.Clean

theorem reads_addLoop (k : ℕ) (a : Option ℕ) : (addLoop k a).Reads k := by
  cases a <;> exact ⟨rfl, fun k => by simp [addLoop]⟩

theorem reads_updLoop (k si : ℕ) (a : Option ℕ) : (updLoop k si a).Reads k := by
  cases a with
  | none => exact ⟨rfl, fun k => by simp [updLoop]⟩
  | some pos =>
    rw [updLoop]
    split <;> exact ⟨rfl, fun k => by simp⟩

theorem reads_getLoop (k : ℕ) (b a : Option ℕ) : (getLoop k b a).Reads k := by
  cases a <;> exact ⟨rfl, fun k => by simp [getLoop]⟩

theorem reads_entry (k : ℕ) (c : Call) : (entry k c).Reads k := by
  cases c <;> exact ⟨rfl, fun k => by simp [entry]⟩

theorem reads_ite {p : Prop} [Decidable p] {a b : Pc} (ha : a.Reads k) (hb : b.Reads k) :
    (if p then a else b).Reads k := by
  split
  · exact ha
  · exact hb

/-- What a load leads to: a call computes its bucket, takes the lock, and reads on. -/
theorem loads_cases {c : Call} (h : loads s t lock c pc = some (lock', pc')) :
    (pc = .key ∧ ∃ k, pc' = .lockWord k ∧ match c with
      | .add si _ | .remove si | .update si _ _ => k = SockTable.hash (s.cell si).so.lport
      | .get lport _ _ => k = SockTable.hash lport) ∨
    (pc.critical = none ∧ pc'.critical = none ∧ pc'.key? = pc.key?) ∨
    (∃ k, pc = .acquire k ∧ pc' = entry k c) ∨
    ∃ k, pc.critical = some k ∧ pc'.Reads k := by
  -- Inside the lock every point but the three before a store is a point that reads.
  have hreads : ∀ {pc k}, Pc.critical pc = some k → (∀ k, pc ≠ .release k (.ret true)) →
      (∀ k, pc ≠ .updRport k) → (∀ k, pc ≠ .addStore k) → pc.Reads k :=
    fun hk h1 h2 h3 => ⟨hk, fun k => ⟨h1 k, h2 k, h3 k⟩⟩
  cases pc with
  | key =>
    left
    cases c <;> cases h <;> exact ⟨rfl, _, rfl, rfl⟩
  | lockWord key =>
    right; left
    cases c <;> cases h <;> exact ⟨rfl, rfl, rfl⟩
  | lockCpu key locked =>
    right; left
    cases c <;> cases h <;> exact ⟨rfl, rfl, rfl⟩
  -- A CPU that finds the lock taken stays where it is; else it enters the call's loop.
  | acquire key =>
    right; right; left
    cases c <;> simp only [loads] at h <;> split at h <;> cases h <;> exact ⟨key, rfl, rfl⟩
  | remAdvance key pos =>
    right; right; right
    cases c <;> simp only [loads, reduceCtorEq, Option.map_eq_some_iff] at h
    obtain ⟨q, -, hq⟩ := h
    cases hq
    exact ⟨key, rfl, hreads rfl (by simp) (by simp) (by simp)⟩
  -- The other points are in the lock: where the loop goes on depends on what was loaded.
  | _ =>
    right; right; right
    cases c <;> simp only [loads, reduceCtorEq, Option.some.injEq, Prod.mk.injEq] at h
    all_goals
      obtain ⟨-, rfl⟩ := h
      refine ⟨_, rfl, ?_⟩
      first
        | exact reads_addLoop _ _
        | exact reads_updLoop _ _ _
        | exact reads_getLoop _ _ _
        | (repeat' apply reads_ite) <;> exact hreads rfl (by simp) (by simp) (by simp)

theorem scan_addLoop {si : ℕ} {so : Sock} {pre suf : List (ℕ × Sock)} (h : bucket S k = pre ++ suf) (hfree : Free so pre) :
    Scan (bucket S k) (.add si so) (addLoop k (suf.map Prod.fst).head?) := by
  cases suf with
  | nil =>
    rw [List.append_nil] at h
    simpa [addLoop, Scan, h] using hfree
  | cons x suf => exact ⟨pre, x.2, suf, h, hfree⟩

theorem scan_loads_add {si : ℕ} {so : Sock} (hso : (s.cell si).so = so)
    (hs : Shows s k (S.chain k) S.sock) (hk : pc.critical = some k)
    (hscan : Scan (bucket S k) (.add si so) pc)
    (h : loads s t lock (.add si so) pc = some (lock', pc')) :
    Scan (bucket S k) (.add si so) pc' := by
  -- One case for each point at which the call loads inside the lock; the others store or lie
  -- outside.
  cases pc <;> simp only [Pc.critical, reduceCtorEq, Option.some.injEq] at hk <;> subst hk <;>
    simp only [loads, reduceCtorEq, Option.some.injEq, Prod.mk.injEq] at h
  case addHead key =>
    obtain ⟨-, rfl⟩ := h
    rw [hs.head]
    exact scan_addLoop (List.nil_append _).symm (fun p hp => absurd hp List.not_mem_nil)
  case addPort key pos =>
    obtain ⟨-, rfl⟩ := h
    obtain ⟨pre, f, suf, hb, hfree⟩ := hscan
    -- The part of the chain already walked, and the element under the cursor.
    rw [(hs.cell hb).1]
    split
    · next hport => exact ⟨pre, f, suf, hb, hfree, hport⟩
    · next hport => exact ⟨pre, f, suf, hb, Free.append.mpr ⟨hfree, Free.singleton.mpr (absurd · hport)⟩⟩
  case addRaddr key pos =>
    obtain ⟨-, rfl⟩ := h
    rw [hso, if_pos rfl]
    exact hscan
  case addRport key pos =>
    obtain ⟨-, rfl⟩ := h
    obtain ⟨pre, f, suf, hb, hfree, hport⟩ := hscan
    rw [hso, if_pos rfl]
    split
    · next hzero => exact ⟨pre, f, suf, hb, hfree, hport, hzero⟩
    · next hzero =>
      rw [hb]
      exact Free.not_of_mem hport fun hacc => hzero ⟨hacc.1, hacc.2.1⟩
  case addParent key pos =>
    obtain ⟨-, rfl⟩ := h
    obtain ⟨pre, f, suf, hb, hfree, hport, hraddr, hrport⟩ := hscan
    rw [hso]
    split
    · next hparent =>
      exact ⟨pre, f, suf, hb, Free.append.mpr ⟨hfree, Free.singleton.mpr fun _ => ⟨hraddr, hrport, hparent⟩⟩⟩
    -- All four fields agree: the element is in use, so the port is not free.
    · next hparent =>
      rw [hb]
      exact Free.not_of_mem hport fun hacc => hparent hacc.2.2
  case addNext key pos =>
    obtain ⟨-, rfl⟩ := h
    obtain ⟨pre, f, suf, hb, hfree⟩ := hscan
    rw [(hs.cell hb).2]
    exact scan_addLoop (by simpa using hb) hfree
  case addLoad key =>
    obtain ⟨-, rfl⟩ := h
    exact ⟨hscan, hs.head⟩

theorem scan_loads_remove {si : ℕ} (hs : Shows s k (S.chain k) S.sock)
    (hk : pc.critical = some k) (hscan : Scan (bucket S k) (.remove si) pc)
    (h : loads s t lock (.remove si) pc = some (lock', pc')) :
    Scan (bucket S k) (.remove si) pc' := by
  cases pc <;> simp only [Pc.critical, reduceCtorEq, Option.some.injEq] at hk <;> subst hk <;>
    simp only [loads, reduceCtorEq, Option.some.injEq, Prod.mk.injEq] at h
  case remTest key pos =>
    obtain ⟨-, rfl⟩ := h
    obtain ⟨pre, suf, hb, hpre, hpos⟩ := hscan
    rw [hs.load hb hpos]
    cases suf with
    | nil =>
      rw [List.append_nil] at hb
      simpa [Scan, hb] using hpre
    | cons x suf => exact ⟨pre, x, suf, hb, hpre, hpos⟩
  case remCompare key pos =>
    obtain ⟨-, rfl⟩ := h
    obtain ⟨pre, x, suf, hb, hpre, hpos⟩ := hscan
    rw [hs.load hb hpos, List.map_cons, List.head?_cons]
    -- The compared pointer is the socket's, or the walk goes on past this element.
    split
    · next hx => exact ⟨pre, x, suf, hb, hpre, hpos, Option.some.inj hx⟩
    · next hx => exact ⟨pre, x, suf, hb, hpre, hpos, fun he => hx (congrArg some he)⟩
  case remAdvance key pos =>
    obtain ⟨pre, x, suf, hb, hpre, hpos, hx⟩ := hscan
    rw [hs.load hb hpos, List.map_cons, List.head?_cons, Option.map_some, Option.some.injEq,
      Prod.mk.injEq] at h
    obtain ⟨-, rfl⟩ := h
    refine ⟨pre ++ [x], suf, by simpa using hb, ?_, .inr ⟨pre, x, rfl, rfl⟩⟩
    simpa [not_or] using ⟨by simpa using hpre, Ne.symm hx⟩
  case remNext key pos =>
    obtain ⟨-, rfl⟩ := h
    obtain ⟨pre, ⟨i, f⟩, suf, hb, hpre, hpos, rfl⟩ := hscan
    exact ⟨pre, (i, f), suf, hb, hpre, hpos, rfl, (hs.cell hb).2⟩

theorem scan_updLoop {si : ℕ} {raddr : UInt32} {rport : UInt16} {pre suf : List (ℕ × Sock)}
    (h : bucket S k = pre ++ suf) (hpre : si ∉ pre.map Prod.fst) :
    Scan (bucket S k) (.update si raddr rport) (updLoop k si (suf.map Prod.fst).head?) := by
  cases suf with
  | nil =>
    rw [List.append_nil] at h
    simpa [updLoop, Scan, h] using hpre
  | cons x suf =>
    rw [List.map_cons, List.head?_cons, updLoop]
    split
    · next hx => simp [Scan, h, ← hx]
    · next hx =>
      refine ⟨pre, x.2, suf, h, ?_⟩
      simpa [not_or] using ⟨by simpa using hpre, Ne.symm hx⟩

theorem scan_loads_update {si : ℕ} {raddr : UInt32} {rport : UInt16}
    (hs : Shows s k (S.chain k) S.sock) (hk : pc.critical = some k)
    (hscan : Scan (bucket S k) (.update si raddr rport) pc)
    (h : loads s t lock (.update si raddr rport) pc = some (lock', pc')) :
    Scan (bucket S k) (.update si raddr rport) pc' := by
  cases pc <;> simp only [Pc.critical, reduceCtorEq, Option.some.injEq] at hk <;> subst hk <;>
    simp only [loads, reduceCtorEq, Option.some.injEq, Prod.mk.injEq] at h
  case updHead key =>
    obtain ⟨-, rfl⟩ := h
    rw [hs.head]
    exact scan_updLoop (List.nil_append _).symm (by simp)
  case updNext key pos =>
    obtain ⟨-, rfl⟩ := h
    obtain ⟨pre, f, suf, hb, hpre⟩ := hscan
    rw [(hs.cell hb).2]
    exact scan_updLoop (by simpa using hb) hpre

theorem scan_getLoop {lport : UInt16} {raddr : UInt32} {rport : UInt16}
    {pre suf : List (ℕ × Sock)} {backup : Option ℕ} (h : bucket S k = pre ++ suf)
    (hpre : Passed lport raddr rport pre backup) :
    Scan (bucket S k) (.get lport raddr rport) (getLoop k backup (suf.map Prod.fst).head?) := by
  cases suf with
  | nil =>
    rw [List.append_nil] at h
    have hnone : pre.find? (fun p => p.2.HasKey lport raddr rport) = none := by
      simpa using hpre.1
    simp only [getLoop, Scan, List.map_nil, List.head?_nil, lookup, h, hnone, Option.none_or]
    exact hpre.2
  | cons x suf => exact ⟨pre, x.2, suf, h, hpre⟩

/-- `get` passes a socket that has another triple. -/
theorem Passed.snoc {lport : UInt16} {raddr : UInt32} {rport : UInt16} {l : List (ℕ × Sock)}
    {pos : ℕ} {f : Sock} {backup : Option ℕ} (h : Passed lport raddr rport l backup)
    (hf : ¬ f.HasKey lport raddr rport) :
    Passed lport raddr rport (l ++ [(pos, f)])
      (backup.or (if f.HasKey lport 0 0 then some pos else none)) := by
  refine ⟨fun p hp => ?_, ?_⟩
  · rcases List.mem_append.mp hp with hp | hp
    · exact h.1 p hp
    · rw [List.mem_singleton.mp hp]
      exact hf
  · rw [List.find?_append, h.2]
    by_cases hwild : f.HasKey lport 0 0 <;>
      cases l.find? (fun p => p.2.HasKey lport 0 0) <;> simp [hwild]

theorem Passed.keep {lport : UInt16} {raddr : UInt32} {rport : UInt16} {l : List (ℕ × Sock)}
    {pos : ℕ} {f : Sock} {backup : Option ℕ} (h : Passed lport raddr rport l backup)
    (hf : ¬ f.HasKey lport raddr rport) (hwild : backup ≠ none ∨ ¬ f.HasKey lport 0 0) :
    Passed lport raddr rport (l ++ [(pos, f)]) backup := by
  have hsnoc : Passed lport raddr rport (l ++ [(pos, f)]) _ := h.snoc hf
  rcases hwild with hne | hwild
  · obtain ⟨b, rfl⟩ := Option.ne_none_iff_exists'.mp hne
    rwa [Option.some_or] at hsnoc
  · rwa [if_neg hwild, Option.or_none] at hsnoc

theorem scan_loads_get {lport : UInt16} {raddr : UInt32} {rport : UInt16}
    (hs : Shows s k (S.chain k) S.sock) (hk : pc.critical = some k)
    (hscan : Scan (bucket S k) (.get lport raddr rport) pc)
    (h : loads s t lock (.get lport raddr rport) pc = some (lock', pc')) :
    Scan (bucket S k) (.get lport raddr rport) pc' := by
  cases pc <;> simp only [Pc.critical, reduceCtorEq, Option.some.injEq] at hk <;> subst hk <;>
    simp only [loads, reduceCtorEq, Option.some.injEq, Prod.mk.injEq] at h
  case getHead key =>
    obtain ⟨-, rfl⟩ := h
    rw [hs.head]
    exact scan_getLoop (List.nil_append _).symm ⟨fun p hp => absurd hp List.not_mem_nil, rfl⟩
  case getPort key pos backup =>
    obtain ⟨-, rfl⟩ := h
    obtain ⟨pre, f, suf, hb, hpre⟩ := hscan
    rw [(hs.cell hb).1]
    split
    · next hport => exact ⟨pre, f, suf, hb, hpre, hport⟩
    · next hport => exact ⟨pre, f, suf, hb, hpre.keep (hport ·.1) (.inr (hport ·.1))⟩
  case getRaddr key pos backup =>
    obtain ⟨-, rfl⟩ := h
    obtain ⟨pre, f, suf, hb, hpre, hport⟩ := hscan
    rw [(hs.cell hb).1]
    split
    · next hraddr => exact ⟨pre, f, suf, hb, hpre, hport, hraddr⟩
    · next hraddr =>
      split
      · next hback => exact ⟨pre, f, suf, hb, hpre, hport, (hraddr ·.2.1), hback⟩
      · next hback => exact ⟨pre, f, suf, hb, hpre.keep (hraddr ·.2.1) (.inl hback)⟩
  case getRport key pos backup =>
    obtain ⟨-, rfl⟩ := h
    obtain ⟨pre, f, suf, hb, hpre, hport, hraddr⟩ := hscan
    rw [(hs.cell hb).1]
    split
    · next hrport =>
      -- the first socket with the triple
      have hnone : pre.find? (fun p => p.2.HasKey lport raddr rport) = none := by
        simpa using hpre.1
      have hkey : f.HasKey lport raddr rport := ⟨hport, hraddr, hrport⟩
      simp [Scan, lookup, hb, List.find?_append, hnone, hkey]
    · next hrport =>
      split
      · next hback => exact ⟨pre, f, suf, hb, hpre, hport, (hrport ·.2.2), hback⟩
      · next hback => exact ⟨pre, f, suf, hb, hpre.keep (hrport ·.2.2) (.inl hback)⟩
  case getRaddr0 key pos backup =>
    obtain ⟨-, rfl⟩ := h
    obtain ⟨pre, f, suf, hb, hpre, hport, hkey, hback⟩ := hscan
    rw [(hs.cell hb).1]
    split
    · next hraddr => exact ⟨pre, f, suf, hb, hpre, hport, hkey, hback, hraddr⟩
    · next hraddr => exact ⟨pre, f, suf, hb, hpre.keep hkey (.inr (hraddr ·.2.1))⟩
  case getRport0 key pos backup =>
    obtain ⟨-, rfl⟩ := h
    obtain ⟨pre, f, suf, hb, hpre, hport, hkey, rfl, hraddr⟩ := hscan
    rw [(hs.cell hb).1]
    split
    · next hrport =>
      have hwild : f.HasKey lport 0 0 := ⟨hport, hraddr, hrport⟩
      have hsnoc : Passed lport raddr rport (pre ++ [(pos, f)]) _ := hpre.snoc hkey
      rw [if_pos hwild, Option.none_or] at hsnoc
      exact ⟨pre, f, suf, hb, hsnoc⟩
    · next hrport => exact ⟨pre, f, suf, hb, hpre.keep hkey (.inr (hrport ·.2.2))⟩
  case getNext key pos backup =>
    obtain ⟨-, rfl⟩ := h
    obtain ⟨pre, f, suf, hb, hpre⟩ := hscan
    rw [(hs.cell hb).2]
    exact scan_getLoop (by simpa using hb) hpre

/-- **Loads.** A call that reads a bucket which holds what the completed calls have left gets
    on with its search. -/
theorem scan_loads {c : Call} {key : Option ℕ} (hown : Own s S key c)
    (hs : Shows s k (S.chain k) S.sock) (hk : pc.critical = some k)
    (hscan : Scan (bucket S k) c pc) (h : loads s t lock c pc = some (lock', pc')) :
    Scan (bucket S k) c pc' := by
  cases c with
  | add si so => exact scan_loads_add hown.2.1 hs hk hscan h
  | remove si => exact scan_loads_remove hs hk hscan h
  | update si raddr rport => exact scan_loads_update hs hk hscan h
  | get lport raddr rport => exact scan_loads_get hs hk hscan h

/-- Behind `acquire`, a call has passed nothing yet. -/
theorem scan_entry (ys : List (ℕ × Sock)) (c : Call) (k : ℕ) : Scan ys c (entry k c) := by
  cases c with
  | add si so => trivial
  | remove si => exact ⟨[], ys, rfl, by simp, .inl ⟨rfl, rfl⟩⟩
  | update si raddr rport => trivial
  | get lport raddr rport => trivial

end Loads

/-! ## Calls that do not meet -/

section Frame

variable {s s₁ : State τ} {S S' : SockTable.State} {c : Call} {pc : Pc} {k : ℕ}

/-- Only calls that store are ever in the middle of it, and behind `acquire`. -/
theorem dirty_spec {d : ℕ × List ℕ × (ℕ → Sock)} (h : Dirty S c pc = some d) :
    pc.critical = some d.1 ∧ ¬ IsGet c ∧ ¬ pc.Clean := by
  cases c <;> cases pc <;> simp only [Dirty, reduceCtorEq] at h
  case update.updRport =>
    cases h
    exact ⟨rfl, id, fun hclean => (hclean _).2.1 rfl⟩
  all_goals
    next key res =>
    rcases res with ⟨_ | _⟩ | _ <;> simp only [reduceCtorEq, Option.some.injEq] at h
    subst h
    exact ⟨rfl, id, fun hclean => (hclean _).1 rfl⟩

theorem dirty_of_clean (h : pc.Clean) : Dirty S c pc = none := by
  cases hd : Dirty S c pc with
  | none => rfl
  | some d => exact absurd h (dirty_spec hd).2.2

/-- The sockets that a call has made of its bucket were there before, or it adds them. -/
theorem dirty_sub {xs : List ℕ} {f : ℕ → Sock} (h : Dirty S c pc = some (k, xs, f)) :
    ∀ i ∈ xs, i ∈ S.chain k ∨ ∃ so, c = .add i so := by
  cases c <;> cases pc <;> simp only [Dirty, reduceCtorEq] at h
  case update.updRport =>
    cases h
    exact fun i hi => .inl hi
  all_goals
    next key res =>
    rcases res with ⟨_ | _⟩ | _ <;> simp only [reduceCtorEq, Option.some.injEq, Prod.mk.injEq] at h
    obtain ⟨rfl, rfl, rfl⟩ := h
    intro i hi
    first
      | exact .inl hi
      | exact .inl (List.mem_of_mem_erase hi)
      | exact (List.mem_cons.mp hi).elim (fun he => .inr ⟨_, by rw [he]⟩) .inl

/-- What is stored between `s` and `s₁` is the head of the bucket `K`, the socket `x`, or
    both. Local ports stay. -/
structure Touches (s s₁ : State τ) (K : Option ℕ) (x : ℕ) : Prop where
  sockets : ∀ k, K ≠ some k → s₁.sockets k = s.sockets k
  cell : ∀ i, i ≠ x → s₁.cell i = s.cell i
  made : ∀ i, s.made i = true → s₁.made i = true
  lport : ∀ i, s.made i = true → (s₁.cell i).so.lport = (s.cell i).so.lport
  task : s₁.task = s.task
  done : s₁.done = s.done

variable {K : Option ℕ} {x : ℕ}

theorem Shows.frame {xs : List ℕ} {f : ℕ → Sock} (h : Shows s k xs f) (ht : Touches s s₁ K x)
    (hK : K ≠ some k) (hx : x ∉ xs) : Shows s₁ k xs f := by
  have hcell : ∀ i ∈ xs, s₁.cell i = s.cell i := fun i hi => ht.cell i (ne_of_mem_of_not_mem hi hx)
  refine ⟨?_, fun i hi => ?_⟩
  · rw [ht.sockets k hK]
    exact h.chain.congr fun i hi => by rw [hcell i hi]
  · rw [hcell i hi]
    exact h.agree i hi

/-- The socket that a call is to add -/
def Adds (c : Call) (x : ℕ) : Prop := ∃ so, c = .add x so

/-- Stores to another bucket and another socket do not disturb a call. -/
theorem At.frame (h : At s S c pc) (ht : Touches s s₁ K x)
    (hK : ∀ k, pc.critical = some k → K ≠ some k) (hadds : ¬ Adds c x)
    (hx : ∀ k, pc.critical = some k → x ∉ S.chain k) : At s₁ S c pc := by
  have hown := h.own
  refine ⟨?_, h.scan, ?_, ?_⟩
  -- Of the call's own socket: its local port stays, and only an `add` also holds its other fields.
  · cases c with
    | add si so =>
      have hne : si ≠ x := fun he => hadds ⟨so, by rw [he]⟩
      refine ⟨ht.made _ hown.1, ?_, hown.2.2⟩
      rw [ht.cell _ hne]
      exact hown.2.1
    | remove si =>
      refine ⟨ht.made _ hown.1, ?_⟩
      rw [ht.lport _ hown.1]
      exact hown.2
    | update si raddr rport =>
      refine ⟨ht.made _ hown.1, ?_⟩
      rw [ht.lport _ hown.1]
      exact hown.2
    | get lport raddr rport => exact hown
  · rintro si so key rfl hpc
    have hne : si ≠ x := fun he => hadds ⟨so, by rw [he]⟩
    rw [ht.cell _ hne]
    exact h.linked si so key rfl hpc
  -- What a call inside the lock has begun to write is in its own chain.
  · intro key xs f hd
    have hcrit := (dirty_spec hd).1
    refine (h.dirty key xs f hd).frame ht (hK key hcrit) fun hmem => ?_
    rcases dirty_sub hd x hmem with hmem | hadd
    · exact hx key hcrit hmem
    · exact hadds hadd

theorem At.congr (h : At s S c pc) (hcell : s₁.cell = s.cell) (hsockets : s₁.sockets = s.sockets)
    (hmade : s₁.made = s.made) : At s₁ S c pc := by
  refine ⟨?_, h.scan, ?_, fun key xs f hd => ⟨?_, ?_⟩⟩
  · have hown := h.own
    cases c <;> simpa only [Own, hcell, hmade] using hown
  · rw [hcell]
    exact h.linked
  · rw [hcell, hsockets]
    exact (h.dirty key xs f hd).chain
  · rw [hcell]
    exact (h.dirty key xs f hd).agree

end Frame

/-! ## Steps -/

section Steps

variable [DecidableEq τ] {S₀ S : SockTable.State} {s s₁ : State τ} {t u : τ} {c : Call}
  {lock lock' : SpinLock τ} {pc pc' : Pc} {k : ℕ}

@[simp] theorem setTask_self (x : Task τ) : (s.setTask t x).task t = x := Function.update_self ..

@[simp] theorem setTask_of_ne (x : Task τ) (h : u ≠ t) : (s.setTask t x).task u = s.task u :=
  Function.update_of_ne h ..

theorem setTask_eq {x : Task τ} (h : (s.setTask t x).task u = .run c lock pc) :
    u = t ∧ x = .run c lock pc ∨ u ≠ t ∧ s.task u = .run c lock pc := by
  by_cases hu : u = t
  · subst hu
    exact .inl ⟨rfl, by rwa [setTask_self] at h⟩
  · exact .inr ⟨hu, by rwa [setTask_of_ne _ hu] at h⟩

/-- A call that is behind `acquire` and stores has its bucket for itself. -/
theorem Sim.alone (h : Sim S₀ S s) (ht : s.task t = .run c lock pc) (hk : pc.critical = some k)
    {c' : Call} (hu : s.task u = .run c' lock' pc') (hk' : pc'.critical = some k)
    (hget : ¬ IsGet c ∨ ¬ IsGet c') : u = t := by
  by_contra hne
  obtain ⟨h1, h2⟩ := h.excl t u c lock pc c' lock' pc' k (Ne.symm hne) ht hu hk hk'
  exact hget.elim (· h1) (· h2)

/-- A call that has stored nothing finds its bucket as the completed calls have left it. -/
theorem Sim.shows_of_clean (h : Sim S₀ S s) (ht : s.task t = .run c lock pc)
    (hk : pc.critical = some k) (hclean : Dirty S c pc = none) :
    Shows s k (S.chain k) S.sock := by
  refine h.shows k fun u c' lock' pc' hu d hd hkey => ?_
  obtain ⟨hcrit, hnget, -⟩ := dirty_spec hd
  rw [hkey] at hcrit
  have hut := h.alone ht hk hu hcrit (.inr hnget)
  subst hut
  rw [ht] at hu
  cases hu
  rw [hclean] at hd
  cases hd

omit [DecidableEq τ] in
theorem dirty_of_loads (h : loads s t lock c pc = some (lock', pc')) : Dirty S c pc = none := by
  cases c <;> cases pc <;> simp only [loads, reduceCtorEq] at h <;> rfl

/-- The memory has changed between `s` and `s₁`, and the CPU `t` goes on to `x`. -/
theorem Sim.move {x : Task τ} (h : Sim S₀ S s) (hmade : ∀ i, s.made i = true → s₁.made i = true)
    (hlport : ∀ i, s.made i = true → (s₁.cell i).so.lport = (s.cell i).so.lport)
    (htask : s₁.task = s.task) (hdone : s₁.done = s.done)
    (hshows : ∀ k, (∀ u c lock pc, (s₁.setTask t x).task u = .run c lock pc →
      ∀ d, Dirty S c pc = some d → d.1 ≠ k) → Shows s₁ k (S.chain k) S.sock)
    (hothers : ∀ u c lock pc, u ≠ t → s.task u = .run c lock pc → At s₁ S c pc)
    (hnew : ∀ c lock pc, x = .run c lock pc → At s₁ S c pc ∧
      ∀ u c' lock' pc', u ≠ t → s.task u = .run c' lock' pc' →
        (∀ k, pc.critical = some k → pc'.critical = some k → IsGet c ∧ IsGet c') ∧
        ∀ si, Adds c si → ¬ Adds c' si) : Sim S₀ S (s₁.setTask t x) := by
  -- The call of `t` is the new one; the others are where they were, seen in the new memory.
  have hat : ∀ u c lock pc, (s₁.setTask t x).task u = .run c lock pc → At s₁ S c pc := by
    intro u c lock pc hu
    rcases setTask_eq hu with ⟨-, rfl⟩ | ⟨hne, hu⟩
    · exact (hnew c lock pc rfl).1
    · exact hothers u c lock pc hne (by rwa [← htask])
  refine ⟨?_, fun k i hi => ?_, h.nodup, fun k hk => ?_, fun u c lock pc hu => ?_, ?_, ?_⟩
  · exact hdone ▸ h.serial
  · obtain ⟨h1, h2, h3⟩ := h.link k i hi
    exact ⟨h1, hmade i h2, (hlport i h2).trans h3⟩
  · exact ⟨(hshows k hk).chain, (hshows k hk).agree⟩
  · exact (hat u c lock pc hu).congr rfl rfl rfl
  -- Two calls in one critical section: at most one of them is `t`'s.
  · intro u v c lock pc c' lock' pc' k huv hu hv hk hk'
    rcases setTask_eq hu with ⟨rfl, rfl⟩ | ⟨hut, hu⟩ <;> rcases setTask_eq hv with ⟨rfl, hx⟩ | ⟨hvt, hv⟩
    · exact absurd rfl huv
    · exact ((hnew c lock pc rfl).2 v c' lock' pc' hvt (by rwa [← htask])).1 k hk hk'
    · exact (((hnew c' lock' pc' hx).2 u c lock pc hut (by rwa [← htask])).1 k hk' hk).symm
    · exact h.excl u v c lock pc c' lock' pc' k huv (by rwa [← htask]) (by rwa [← htask]) hk hk'
  -- Two calls that add one socket: again at most one of them is `t`'s.
  · intro u v si so lock pc so' lock' pc' huv hu hv
    rcases setTask_eq hu with ⟨rfl, rfl⟩ | ⟨hut, hu⟩ <;> rcases setTask_eq hv with ⟨rfl, hx⟩ | ⟨hvt, hv⟩
    · exact huv rfl
    · exact ((hnew _ lock pc rfl).2 v _ lock' pc' hvt (by rwa [← htask])).2 si ⟨so, rfl⟩ ⟨so', rfl⟩
    · exact ((hnew _ lock' pc' hx).2 u _ lock pc hut (by rwa [← htask])).2 si ⟨so', rfl⟩ ⟨so, rfl⟩
    · exact h.differ u v si so lock pc so' lock' pc' huv (by rwa [← htask]) (by rwa [← htask])

omit [DecidableEq τ] in
/-- Before `acquire` there is nothing to know of the bucket. -/
theorem At.of_outside (hown : Own s S pc.key? c) (hpc : pc.critical = none) : At s S c pc := by
  refine ⟨hown, fun k hk => ?_, fun si so k _ he => ?_, fun k xs f hd => ?_⟩
  · rw [hpc] at hk
    cases hk
  · rw [he] at hpc
    cases hpc
  · rw [(dirty_spec hd).1] at hpc
    cases hpc

omit [DecidableEq τ] in
theorem At.of_reads (hown : Own s S pc.key? c) (hpc : pc.Reads k)
    (hscan : Scan (bucket S k) c pc) : At s S c pc := by
  refine ⟨hown, fun j hj => ?_, fun si so j _ he => absurd he (hpc.2 j).2.2, fun j xs f hd => ?_⟩
  · rw [hpc.1] at hj
    cases hj
    exact hscan
  · rw [dirty_of_clean hpc.2] at hd
    cases hd

omit [DecidableEq τ] in
/-- What a call knows before a load, it knows after it, and what it has read. -/
theorem At.load (hat : At s S c pc) (hl : loads s t lock c pc = some (lock', pc'))
    (hshows : ∀ k, pc.critical = some k → Shows s k (S.chain k) S.sock) : At s S c pc' := by
  have hown := hat.own
  rcases loads_cases hl with
    ⟨rfl, key, rfl, hkey⟩ | ⟨hpc, hpc', hkey⟩ | ⟨key, rfl, rfl⟩ | ⟨key, hpc, hpc'⟩
  · refine .of_outside ?_ rfl
    cases c with
    | add si so =>
      refine ⟨hown.1, hown.2.1, hown.2.2.1, fun k hk => ?_⟩
      cases hk
      rw [hkey, hown.2.1]
    | remove si => exact ⟨hown.1, fun k hk => by cases hk; exact hkey⟩
    | update si raddr rport => exact ⟨hown.1, fun k hk => by cases hk; exact hkey⟩
    | get lport raddr rport => exact fun k hk => by cases hk; exact hkey
  · exact .of_outside (hkey ▸ hown) hpc'
  · have hreads := reads_entry key c
    refine .of_reads ?_ hreads (scan_entry _ c key)
    rwa [key?_of_critical hreads.1]
  · refine .of_reads ?_ hpc' (scan_loads hown (hshows key hpc) hpc (hat.scan key hpc) hl)
    rwa [key?_of_critical hpc'.1, ← key?_of_critical hpc]

/-- The bucket is shown as before where no call has come to be in the middle of it. -/
theorem Sim.shows_setTask {x : Task τ} (h : Sim S₀ S s) (ht : s.task t = .run c lock pc)
    (hclean : ∀ d, Dirty S c pc = some d → d.1 ≠ k)
    (hk : ∀ u c lock pc, (s.setTask t x).task u = .run c lock pc →
      ∀ d, Dirty S c pc = some d → d.1 ≠ k) : Shows s k (S.chain k) S.sock := by
  refine h.shows k fun u c' lock' pc' hu d hd => ?_
  by_cases hut : u = t
  · subst hut
    rw [ht] at hu
    cases hu
    exact hclean d hd
  · exact hk u c' lock' pc' (by rwa [setTask_of_ne _ hut]) d hd

/-- A load, or `acquire`. -/
theorem Sim.load (h : Sim S₀ S s) (ht : s.task t = .run c lock pc)
    (hex : Exclusive s (.step t)) (hl : loads s t lock c pc = some (lock', pc')) :
    Sim S₀ S (s.setTask t (.run c lock' pc')) := by
  have hclean : Dirty S c pc = none := dirty_of_loads hl
  have hnew : At s S c pc' :=
    (h.«at» t c lock pc ht).load hl fun k hk => h.shows_of_clean ht hk hclean
  refine h.move (fun _ => id) (fun _ _ => rfl) rfl rfl
    (fun k => h.shows_setTask ht fun d hd => by rw [hclean] at hd; cases hd)
    (fun u c lock pc _ hu => h.«at» u c lock pc hu) ?_
  rintro _ _ _ ⟨⟩
  refine ⟨hnew, fun u c' lock'' pc'' hne hu => ⟨fun k hk hk' => ?_, ?_⟩⟩
  · rcases loads_cases hl with
      ⟨-, key, rfl, -⟩ | ⟨-, hpc', -⟩ | ⟨key, rfl, rfl⟩ | ⟨key, hpc, hpc'⟩
    · cases hk
    · rw [hpc'] at hk
      cases hk
    · -- the call passes `acquire`: nobody else is in the bucket
      have hkey := (reads_entry key c).1.symm.trans hk
      obtain rfl := Option.some.inj hkey
      exact hex c lock key ht u c' lock'' pc'' hne hu hk'
    · obtain rfl := Option.some.inj (hpc'.1.symm.trans hk)
      exact h.excl t u c lock pc c' lock'' pc'' key (Ne.symm hne) ht hu hpc hk'
  · rintro si ⟨so, rfl⟩ ⟨so', rfl⟩
    exact h.differ t u si so lock pc so' lock'' pc'' (Ne.symm hne) ht hu

/-- A store of a call to its bucket and to one socket. -/
theorem Sim.store {x : ℕ} (h : Sim S₀ S s) (ht : s.task t = .run c lock pc)
    (hk : pc.critical = some k) (hk' : pc'.critical = some k) (hget : ¬ IsGet c)
    (htouch : Touches s s₁ (some k) x) (hx : x ∈ S.chain k ∨ Adds c x)
    (hat : At s₁ S c pc')
    (hshows : Dirty S c pc' = none → Shows s₁ k (S.chain k) S.sock) :
    Sim S₀ S (s₁.setTask t (.run c lock pc')) := by
  have hown := (h.«at» t c lock pc ht).own
  -- the socket is in no other bucket
  have hnot : ∀ j, j ≠ k → x ∉ S.chain j := by
    intro j hj hmem
    rcases hx with hx | ⟨so, rfl⟩
    · exact hj ((h.link j x hmem).1.symm.trans (h.link k x hx).1)
    · exact hown.2.2.1 j hmem
  have hnadds : ∀ u c' lock' pc', u ≠ t → s.task u = .run c' lock' pc' → ¬ Adds c' x := by
    rintro u c' lock' pc' hne hu ⟨so', rfl⟩
    rcases hx with hx | ⟨so, rfl⟩
    · exact (h.«at» u _ lock' pc' hu).own.2.2.1 k hx
    · exact h.differ t u x so lock pc so' lock' pc' (Ne.symm hne) ht hu
  have hother : ∀ u c' lock' pc' j, u ≠ t → s.task u = .run c' lock' pc' →
      pc'.critical = some j → j ≠ k := by
    rintro u c' lock' pc' j hne hu hj rfl
    exact hne (h.alone ht hk hu hj (.inl hget))
  refine h.move htouch.made htouch.lport htouch.task htouch.done (fun j hj => ?_) ?_ ?_
  · by_cases hjk : j = k
    · subst hjk
      refine hshows ?_
      cases hd : Dirty S c pc' with
      | none => rfl
      | some d =>
        have hcrit := (dirty_spec hd).1
        rw [hk'] at hcrit
        exact absurd (Option.some.inj hcrit).symm (hj t c lock pc' (setTask_self _) d hd)
    · have hclean : ∀ d, Dirty S c pc = some d → d.1 ≠ j := by
        intro d hd hdj
        have hcrit := (dirty_spec hd).1.symm.trans hk
        exact hjk (hdj.symm.trans (Option.some.inj hcrit))
      refine Shows.frame (h.shows_setTask (x := .run c lock pc') ht hclean ?_) htouch
        (by simpa using Ne.symm hjk) (hnot j hjk)
      intro u c' lock' pc'' hu d hd
      rcases setTask_eq hu with ⟨rfl, hx⟩ | ⟨hne, hu⟩
      · exact hj u c' lock' pc'' (by rw [setTask_self]; exact hx) d hd
      · exact hj u c' lock' pc'' (by rwa [setTask_of_ne _ hne, htouch.task]) d hd
  · intro u c' lock' pc'' hne hu
    refine (h.«at» u c' lock' pc'' hu).frame htouch (fun j hj => ?_) (hnadds u c' lock' pc'' hne hu)
      (fun j hj => hnot j (hother u c' lock' pc'' j hne hu hj))
    simpa using Ne.symm (hother u c' lock' pc'' j hne hu hj)
  · rintro _ _ _ ⟨⟩
    refine ⟨hat, fun u c' lock' pc'' hne hu => ⟨fun j hj hj' => ?_, ?_⟩⟩
    · rw [hk'] at hj
      cases hj
      exact absurd rfl (hother u c' lock' pc'' k hne hu hj')
    · rintro si ⟨so, rfl⟩ ⟨so', rfl⟩
      exact h.differ t u si so lock pc so' lock' pc'' (Ne.symm hne) ht hu

omit [DecidableEq τ] in
theorem touches_setCell (s : State τ) (K : Option ℕ) (x : ℕ) {y : Cell}
    (hlport : y.so.lport = (s.cell x).so.lport) : Touches s (s.setCell x y) K x := by
  refine ⟨fun _ _ => rfl, fun i hi => Function.update_of_ne hi .., fun _ => id, fun i _ => ?_, rfl, rfl⟩
  by_cases hi : i = x
  · subst hi
    simpa [State.setCell] using hlport
  · simp [State.setCell, hi]

omit [DecidableEq τ] in
theorem setCell_self (s : State τ) (x : ℕ) (y : Cell) : (s.setCell x y).cell x = y :=
  Function.update_self ..

omit [DecidableEq τ] in
theorem setCell_of_ne (s : State τ) {x i : ℕ} (y : Cell) (h : i ≠ x) :
    (s.setCell x y).cell i = s.cell i := Function.update_of_ne h ..

/-- `si->next = sockets[key]` -/
theorem Sim.addLink {si : ℕ} {so : Sock} {head : Option ℕ} (h : Sim S₀ S s)
    (ht : s.task t = .run (.add si so) lock (.addLink k head)) :
    Sim S₀ S ((s.setCell si { s.cell si with next := head }).setTask t
      (.run (.add si so) lock (.addStore k))) := by
  have hat := h.«at» t _ _ _ ht
  obtain ⟨hmade, hso, hnot, hkey⟩ := hat.own
  obtain ⟨hfree, hhead⟩ := hat.scan k rfl
  have htouch : ∀ K, Touches s (s.setCell si { s.cell si with next := head }) K si :=
    fun K => touches_setCell s K si rfl
  refine h.store ht rfl rfl id (htouch _) (.inr ⟨so, rfl⟩) ⟨⟨hmade, ?_, hnot, hkey⟩, ?_, ?_, ?_⟩ fun _ => ?_
  · rw [setCell_self]
    exact hso
  · rintro _ ⟨⟩
    exact hfree
  · rintro _ _ _ ⟨⟩ ⟨⟩
    rw [setCell_self, hhead, map_fst_bucket]
  · rintro _ _ _ ⟨⟩
  · exact (h.shows_of_clean ht rfl rfl).frame (htouch none) (by simp) (hnot k)

/-- `sockets[key] = si` -/
theorem Sim.addStore {si : ℕ} {so : Sock} (h : Sim S₀ S s)
    (ht : s.task t = .run (.add si so) lock (.addStore k)) :
    Sim S₀ S ((s.store (.head k) (some si)).setTask t
      (.run (.add si so) lock (.release k (.ret true)))) := by
  have hat := h.«at» t _ _ _ ht
  obtain ⟨hmade, hso, hnot, hkey⟩ := hat.own
  have hshows := h.shows_of_clean ht rfl rfl
  have htouch : Touches s (s.store (.head k) (some si)) (some k) si :=
    ⟨fun j hj => Function.update_of_ne (fun he => hj (by rw [he])) .., fun _ _ => rfl, fun _ => id,
      fun _ _ => rfl, rfl, rfl⟩
  refine h.store ht rfl rfl id htouch (.inr ⟨so, rfl⟩) ⟨⟨hmade, hso, hnot, hkey⟩, ?_, ?_, ?_⟩ ?_
  · rintro _ ⟨⟩
    exact hat.scan k rfl
  · rintro _ _ _ _ ⟨⟩
  · rintro _ _ _ ⟨⟩
    refine ⟨?_, fun i hi => ?_⟩
    · -- the new socket already leads to the old head
      have hnext := hat.linked si so k rfl rfl
      simpa [State.store] using hshows.chain.push (hnext.trans hshows.chain.head_eq.symm)
    · by_cases hne : i = si
      · subst hne
        simpa [State.store] using hso
      · have hi := (List.mem_cons.mp hi).resolve_left hne
        simpa [State.store, Function.update_of_ne hne] using hshows.agree i hi
  · rintro ⟨⟩

/-- `*pos = si->next` -/
theorem Sim.remStore {si : ℕ} {pos : Loc} {next : Option ℕ} (h : Sim S₀ S s)
    (ht : s.task t = .run (.remove si) lock (.remStore k pos next)) :
    Sim S₀ S ((s.store pos next).setTask t (.run (.remove si) lock (.release k (.ret true)))) := by
  have hat := h.«at» t _ _ _ ht
  have hown := hat.own
  obtain ⟨pre, ⟨x, f⟩, suf, hb, hpre, hpos, hx, hnext⟩ := hat.scan k rfl
  obtain rfl : x = si := hx
  have hshows := h.shows_of_clean ht rfl rfl
  have hchain := chain_eq_of_bucket hb
  have herase : (S.chain k).erase x = pre.map Prod.fst ++ suf.map Prod.fst := by
    rw [hchain, List.erase_append_right _ hpre, List.erase_cons_head]
  have hmem : x ∈ (bucket S k).map Prod.fst := by simp [hb]
  have hc := hshows.chain
  rw [hchain] at hc
  rcases hpos with ⟨rfl, rfl⟩ | ⟨pre', ⟨y, g⟩, rfl, rfl⟩
  · -- the socket is the first one
    have htouch : Touches s (s.store (.head k) next) (some k) x :=
      ⟨fun j hj => Function.update_of_ne (fun he => hj (by rw [he])) .., fun _ _ => rfl, fun _ => id,
        fun _ _ => rfl, rfl, rfl⟩
    refine h.store ht rfl rfl id htouch (.inl (by rwa [← map_fst_bucket])) ⟨hown, ?_, ?_, ?_⟩ ?_
    · rintro _ ⟨⟩
      exact hmem
    · rintro _ _ _ ⟨⟩
    · rintro _ _ _ ⟨⟩
      refine ⟨?_, fun i hi => hshows.agree i (List.mem_of_mem_erase hi)⟩
      obtain ⟨-, hsuf⟩ := Seg.cons_iff.mp hc
      have hhead : (s.cell x).next = next := (Chain.head_eq hsuf).trans hnext.symm
      rw [herase]
      simpa [State.store, ← hhead] using hsuf
    · rintro ⟨⟩
  · -- the pointer to the socket is the link of the one before it
    have htouch : Touches s (s.store (.next y) next) (some k) y := touches_setCell s _ y rfl
    have hsub : ∀ i ∈ (S.chain k).erase x, i ∈ S.chain k := fun i hi => List.mem_of_mem_erase hi
    have hnext' : (s.cell x).next = next := (hshows.cell hb).2.trans hnext.symm
    have hnd := h.nodup k
    simp only [List.map_append, List.map_cons, List.map_nil, List.append_assoc,
      List.singleton_append] at hchain hc herase
    rw [hchain] at hnd
    refine h.store ht rfl rfl id htouch (.inl (by simp [hchain])) ⟨⟨hown.1, ?_⟩, ?_, ?_, ?_⟩ ?_
    · rw [htouch.lport _ hown.1]
      exact hown.2
    · rintro _ ⟨⟩
      exact hmem
    · rintro _ _ _ ⟨⟩
    · rintro _ _ _ ⟨⟩
      have hlinks : (fun i => ((s.store (.next y) next).cell i).next) =
          Function.update (fun i => (s.cell i).next) y next := by
        funext i
        by_cases hi : i = y
        · rw [hi, Function.update_self]
          exact congrArg Cell.next (setCell_self ..)
        · rw [Function.update_of_ne hi]
          exact congrArg Cell.next (setCell_of_ne s _ hi)
      refine ⟨?_, fun i hi => ?_⟩
      · rw [hlinks, herase, ← hnext']
        exact hc.unlink hnd
      · rw [← hshows.agree i (hsub i hi)]
        by_cases hi : i = y
        · subst hi
          simp [State.store, setCell_self]
        · exact congrArg Cell.so (setCell_of_ne s _ hi)
    · rintro ⟨⟩

omit [DecidableEq τ] in
/-- Storing into the triple of a socket of the bucket leaves the links. -/
theorem Shows.setSo {xs : List ℕ} {f : ℕ → Sock} (h : Shows s k xs f) (si : ℕ) (so : Sock) :
    Shows (s.setCell si { s.cell si with so := so }) k xs (Function.update f si so) := by
  refine ⟨h.chain.congr fun i _ => ?_, fun i hi => ?_⟩
  · by_cases hi : i = si
    · rw [hi, setCell_self]
    · rw [setCell_of_ne s _ hi]
  · by_cases hne : i = si
    · rw [hne, setCell_self, Function.update_self]
    · rw [setCell_of_ne s _ hne, Function.update_of_ne hne]
      exact h.agree i hi

/-- `si->raddr = raddr` -/
theorem Sim.updRaddr {si : ℕ} {raddr : UInt32} {rport : UInt16} (h : Sim S₀ S s)
    (ht : s.task t = .run (.update si raddr rport) lock (.updRaddr k)) :
    Sim S₀ S ((s.setCell si { s.cell si with so := { (s.cell si).so with raddr := raddr } }).setTask
      t (.run (.update si raddr rport) lock (.updRport k))) := by
  have hat := h.«at» t _ _ _ ht
  have hown := hat.own
  have hmem := hat.scan k rfl
  have hsi : si ∈ S.chain k := by
    rw [← map_fst_bucket]
    exact hmem
  have hshows := h.shows_of_clean ht rfl rfl
  have htouch := touches_setCell s (some k) si
    (y := { s.cell si with so := { (s.cell si).so with raddr := raddr } }) rfl
  refine h.store ht rfl rfl id htouch (.inl hsi) ⟨⟨hown.1, ?_⟩, ?_, ?_, ?_⟩ ?_
  · rw [htouch.lport _ hown.1]
    exact hown.2
  · rintro _ ⟨⟩
    exact hmem
  · rintro _ _ _ ⟨⟩
  · rintro _ _ _ ⟨⟩
    rw [← hshows.agree si hsi]
    exact hshows.setSo si _
  · rintro ⟨⟩

/-- `si->rport = rport` -/
theorem Sim.updRport {si : ℕ} {raddr : UInt32} {rport : UInt16} (h : Sim S₀ S s)
    (ht : s.task t = .run (.update si raddr rport) lock (.updRport k)) :
    Sim S₀ S ((s.setCell si { s.cell si with so := { (s.cell si).so with rport := rport } }).setTask
      t (.run (.update si raddr rport) lock (.release k (.ret true)))) := by
  have hat := h.«at» t _ _ _ ht
  have hown := hat.own
  have hmem := hat.scan k rfl
  have hsi : si ∈ S.chain k := by
    rw [← map_fst_bucket]
    exact hmem
  -- the address has been stored before
  have hshows := hat.dirty k _ _ rfl
  have hso : (s.cell si).so = { S.sock si with raddr := raddr } := by
    rw [hshows.agree si hsi, Function.update_self]
  have htouch := touches_setCell s (some k) si
    (y := { s.cell si with so := { (s.cell si).so with rport := rport } }) rfl
  refine h.store ht rfl rfl id htouch (.inl hsi) ⟨⟨hown.1, ?_⟩, ?_, ?_, ?_⟩ ?_
  · rw [htouch.lport _ hown.1]
    exact hown.2
  · rintro _ ⟨⟩
    exact hmem
  · rintro _ _ _ ⟨⟩
  · rintro _ _ _ ⟨⟩
    have hset := hshows.setSo si { (s.cell si).so with rport := rport }
    rw [Function.update_idem, hso] at hset
    rw [hso]
    exact hset
  · rintro ⟨⟩

/-- `S'` is what a call makes of bucket `k` of the table `S`, and what the memory shows there. -/
structure Returned (s : State τ) (S S' : SockTable.State) (c : Call) (k : ℕ) : Prop where
  isGet : IsGet c → S' = S
  chain : ∀ j, j ≠ k → S'.chain j = S.chain j
  sock : ∀ j, j ≠ k → ∀ i ∈ S.chain j, S'.sock i = S.sock i
  sub : ∀ i ∈ S'.chain k, i ∈ S.chain k ∨ Adds c i
  link : ∀ i ∈ S'.chain k, SockTable.hash (S'.sock i).lport = k ∧ s.made i = true ∧
    (s.cell i).so.lport = (S'.sock i).lport
  nodup : (S'.chain k).Nodup
  shows : Shows s k (S'.chain k) S'.sock

omit [DecidableEq τ] in
theorem exec_add_eq (S : SockTable.State) (si : ℕ) (so : Sock) :
    S.exec (.add si so) =
      if (∃ i ∈ S.chain (SockTable.hash so.lport), ((S.setSock si so).sock i).lport = so.lport) ∧
          ¬ so.Accepting then
        (S.setSock si so, .ret false)
      else ((S.setSock si so).setChain (SockTable.hash so.lport)
        (si :: S.chain (SockTable.hash so.lport)), .ret true) := by
  have hadd := SockTable.State.sockHashtableAdd_eq (S.setSock si so) si
  rw [SockTable.State.setSock_self, SockTable.State.setSock_chain] at hadd
  rw [SockTable.State.exec, hadd]
  by_cases hfail : (∃ i ∈ S.chain (SockTable.hash so.lport),
      ((S.setSock si so).sock i).lport = so.lport) ∧ ¬ so.Accepting
  · rw [if_pos hfail, if_pos hfail]
  · rw [if_neg hfail, if_neg hfail]

omit [DecidableEq τ] in
/-- What a call returns is what it would return if it were made at this point. -/
theorem Sim.returned_add {si : ℕ} {so : Sock} {res : Result} (h : Sim S₀ S s)
    (hat : At s S (.add si so) (.release k res))
    (hshows : Dirty S (.add si so) (.release k res) = none → Shows s k (S.chain k) S.sock) :
    ∃ S', S.exec (.add si so) = (S', res) ∧ Returned s S S' (.add si so) k := by
  obtain ⟨hmade, hso, hnot, hkey⟩ := hat.own
  have hscan := hat.scan k rfl
  obtain rfl := hkey k rfl
  have hadd := exec_add_eq S si so
  have hsock : ∀ j, ∀ i ∈ S.chain j, (S.setSock si so).sock i = S.sock i := fun j i hi =>
    SockTable.State.setSock_of_ne _ _ (ne_of_mem_of_not_mem hi (hnot j))
  -- the loop gives up where the condition on the bucket says so
  have hfree : Free so (bucket S (SockTable.hash so.lport)) ↔
      ¬ ((∃ i ∈ S.chain (SockTable.hash so.lport),
        ((S.setSock si so).sock i).lport = so.lport) ∧ ¬ so.Accepting) := by
    rw [not_and_not_right, Free]
    constructor
    · rintro hfree ⟨i, hi, hport⟩
      rw [hsock _ i hi] at hport
      exact hfree (i, S.sock i) (mem_bucket.mpr ⟨hi, rfl⟩) hport
    · intro himp p hp hport
      obtain ⟨hi, hf⟩ := mem_bucket.mp hp
      refine himp ⟨p.1, hi, ?_⟩
      rw [hsock _ p.1 hi, hf, hport]
  rcases res with ⟨_ | _⟩ | _
  · -- a socket has the port
    have hfail := not_not.mp (mt hfree.mpr hscan)
    rw [if_pos hfail] at hadd
    refine ⟨S.setSock si so, hadd, ?_⟩
    have hsh := hshows rfl
    refine ⟨False.elim, fun _ _ => rfl, fun j _ => hsock j, fun i hi => .inl hi, fun i hi => ?_,
      h.nodup _, hsh.chain, fun i hi => ?_⟩
    · rw [hsock _ i hi]
      exact h.link _ i hi
    · rw [hsock _ i hi]
      exact hsh.agree i hi
  · rw [if_neg (hfree.mp hscan)] at hadd
    refine ⟨_, hadd, False.elim,
      fun j hj => SockTable.State.setChain_of_ne _ _ hj, fun j _ => hsock j, ?_, ?_, ?_, ?_⟩
    all_goals rw [SockTable.State.setChain_self]
    · intro i hi
      exact (List.mem_cons.mp hi).elim (fun he => .inr ⟨so, by rw [he]⟩) .inl
    · intro i hi
      rw [SockTable.State.setChain_sock]
      rcases List.mem_cons.mp hi with rfl | hi
      · rw [SockTable.State.setSock_self]
        exact ⟨rfl, hmade, by rw [hso]⟩
      · rw [hsock _ i hi]
        exact h.link _ i hi
    · exact List.nodup_cons.mpr ⟨hnot _, h.nodup _⟩
    · exact hat.dirty _ _ _ rfl
  · exact hscan.elim

omit [DecidableEq τ] in
theorem Sim.returned_remove {si : ℕ} {res : Result} (h : Sim S₀ S s)
    (hat : At s S (.remove si) (.release k res))
    (hshows : Dirty S (.remove si) (.release k res) = none → Shows s k (S.chain k) S.sock) :
    ∃ S', S.exec (.remove si) = (S', res) ∧ Returned s S S' (.remove si) k := by
  obtain ⟨hmade, hkey⟩ := hat.own
  have hscan := hat.scan k rfl
  rcases res with ⟨_ | _⟩ | _
  · -- if another bucket had the socket, its local port would lead there
    have hnot : si ∉ S.chain (SockTable.hash (S.sock si).lport) := by
      intro hsi
      have hlink := h.link _ si hsi
      have hk := hkey k rfl
      rw [hlink.2.2] at hk
      subst hk
      exact hscan (by rwa [map_fst_bucket])
    refine ⟨S, by rw [SockTable.State.exec, SockTable.State.sockHashtableRemove, if_neg hnot], ?_⟩
    exact ⟨fun _ => rfl, fun _ _ => rfl, fun _ _ _ _ => rfl, fun i hi => .inl hi, h.link k,
      h.nodup k, hshows rfl⟩
  · have hsi : si ∈ S.chain k := by
      rw [← map_fst_bucket]
      exact hscan
    have hk := (h.link k si hsi).1
    subst hk
    refine ⟨S.setChain _ ((S.chain _).erase si),
      by rw [SockTable.State.exec, SockTable.State.sockHashtableRemove, if_pos hsi], False.elim,
      fun j hj => SockTable.State.setChain_of_ne _ _ hj, fun _ _ _ _ => rfl, ?_, ?_, ?_, ?_⟩
    all_goals rw [SockTable.State.setChain_self]
    · exact fun i hi => .inl (List.mem_of_mem_erase hi)
    · exact fun i hi => h.link _ i (List.mem_of_mem_erase hi)
    · exact (h.nodup _).erase si
    · exact hat.dirty _ _ _ rfl
  · exact hscan.elim

omit [DecidableEq τ] in
theorem Sim.returned_update {si : ℕ} {raddr : UInt32} {rport : UInt16} {res : Result}
    (h : Sim S₀ S s) (hat : At s S (.update si raddr rport) (.release k res))
    (hshows : Dirty S (.update si raddr rport) (.release k res) = none →
      Shows s k (S.chain k) S.sock) :
    ∃ S', S.exec (.update si raddr rport) = (S', res) ∧
      Returned s S S' (.update si raddr rport) k := by
  obtain ⟨hmade, hkey⟩ := hat.own
  have hscan := hat.scan k rfl
  rcases res with ⟨_ | _⟩ | _
  · have hnot : si ∉ S.chain (SockTable.hash (S.sock si).lport) := by
      intro hsi
      have hlink := h.link _ si hsi
      have hk := hkey k rfl
      rw [hlink.2.2] at hk
      subst hk
      exact hscan (by rwa [map_fst_bucket])
    refine ⟨S, by rw [SockTable.State.exec, SockTable.State.sockHashtableUpdate, if_neg hnot], ?_⟩
    exact ⟨fun _ => rfl, fun _ _ => rfl, fun _ _ _ _ => rfl, fun i hi => .inl hi, h.link k,
      h.nodup k, hshows rfl⟩
  · have hsi : si ∈ S.chain k := by
      rw [← map_fst_bucket]
      exact hscan
    have hk := (h.link k si hsi).1
    have hin : si ∈ S.chain (SockTable.hash (S.sock si).lport) := by rwa [hk]
    refine ⟨S.setSock si { S.sock si with raddr := raddr, rport := rport },
      by rw [SockTable.State.exec, SockTable.State.sockHashtableUpdate, if_pos hin], False.elim, fun _ _ => rfl,
      fun j hj i hi => ?_, fun i hi => .inl hi, fun i hi => ?_,
      h.nodup k, hat.dirty _ _ _ rfl⟩
    · -- the socket is in no other bucket
      refine SockTable.State.setSock_of_ne _ _ fun he => hj ?_
      rw [← (h.link j i hi).1, he, hk]
    · by_cases hi' : i = si
      · subst hi'
        rw [SockTable.State.setSock_self]
        exact h.link k i hsi
      · rw [SockTable.State.setSock_of_ne _ _ hi']
        exact h.link k i hi
  · exact hscan.elim

omit [DecidableEq τ] in
theorem Sim.returned_get {lport : UInt16} {raddr : UInt32} {rport : UInt16} {res : Result}
    (h : Sim S₀ S s) (hat : At s S (.get lport raddr rport) (.release k res))
    (hshows : Dirty S (.get lport raddr rport) (.release k res) = none →
      Shows s k (S.chain k) S.sock) :
    ∃ S', S.exec (.get lport raddr rport) = (S', res) ∧
      Returned s S S' (.get lport raddr rport) k := by
  have hscan := hat.scan k rfl
  obtain rfl := hat.own k rfl
  rcases res with _ | r
  · exact hscan.elim
  · have hfind : ∀ raddr rport, ((bucket S (SockTable.hash lport)).find?
        (fun p => p.2.HasKey lport raddr rport)).map Prod.fst =
        (S.chain (SockTable.hash lport)).find? fun i => (S.sock i).HasKey lport raddr rport := by
      intro raddr rport
      rw [bucket, List.find?_map, Option.map_map]
      exact Option.map_id'
    refine ⟨S, ?_, fun _ => rfl, fun _ _ => rfl, fun _ _ _ _ => rfl, fun i hi => .inl hi,
      h.link _, h.nodup _, hshows rfl⟩
    have hr : r = lookup lport raddr rport (bucket S (SockTable.hash lport)) := hscan
    rw [SockTable.State.exec, SockTable.State.sockHashtableGet, SockTable.State.getLoop_eq, hr,
      lookup, Option.map_or, hfind, hfind, Option.none_or]

/-- **Returns.** What a call returns, and what it leaves in memory, is what it would return and
    leave if it were made when it returns. -/
theorem Sim.returned {res : Result} (h : Sim S₀ S s)
    (ht : s.task t = .run c lock (.release k res)) :
    ∃ S', S.exec c = (S', res) ∧ Returned s S S' c k := by
  have hat := h.«at» t _ _ _ ht
  have hshows := h.shows_of_clean ht rfl
  cases c with
  | add si so => exact h.returned_add hat hshows
  | remove si => exact h.returned_remove hat hshows
  | update si raddr rport => exact h.returned_update hat hshows
  | get lport raddr rport => exact h.returned_get hat hshows

omit [DecidableEq τ] in
theorem Shows.of_agree {xs : List ℕ} {f f' : ℕ → Sock} (h : Shows s k xs f)
    (hf : ∀ i ∈ xs, f' i = f i) : Shows s k xs f' :=
  ⟨h.chain, fun i hi => (h.agree i hi).trans (hf i hi).symm⟩

/-- The tables agree on the bucket that the call is working on. -/
def SameBucket (S S' : SockTable.State) (pc : Pc) : Prop :=
  ∀ k, pc.critical = some k → S'.chain k = S.chain k ∧ ∀ i ∈ S.chain k, S'.sock i = S.sock i

theorem SameBucket.symm {S S' : SockTable.State} (h : SameBucket S S' pc) : SameBucket S' S pc :=
  fun k hk => ⟨(h k hk).1.symm, fun i hi => ((h k hk).2 i (by rwa [← (h k hk).1])).symm⟩

theorem SameBucket.bucket_eq {S S' : SockTable.State} (h : SameBucket S S' pc)
    (hk : pc.critical = some k) : bucket S' k = bucket S k := by
  obtain ⟨hchain, hsock⟩ := h k hk
  rw [bucket, bucket, hchain]
  exact List.map_congr_left fun i hi => by rw [hsock i hi]

theorem SameBucket.dirty {S S' : SockTable.State} (h : SameBucket S S' pc) {xs : List ℕ}
    {f' : ℕ → Sock} (hd : Dirty S' c pc = some (k, xs, f')) :
    ∃ f, Dirty S c pc = some (k, xs, f) ∧ ∀ i ∈ xs, f' i = f i := by
  obtain ⟨hchain, hsock⟩ := h k (dirty_spec hd).1
  -- an update of both tables at the socket of the call agrees where they agree
  have hupdate : ∀ (si : ℕ) (g g' : Sock), ∀ i ∈ S.chain k, (si ∈ S.chain k → g' = g) →
      Function.update S'.sock si g' i = Function.update S.sock si g i := by
    intro si g g' i hi hg
    by_cases hne : i = si
    · subst hne
      rw [Function.update_self, Function.update_self, hg hi]
    · rw [Function.update_of_ne hne, Function.update_of_ne hne, hsock i hi]
  cases c <;> cases pc <;> simp only [Dirty, reduceCtorEq] at hd
  case update.updRport si raddr rport key =>
    cases hd
    exact ⟨_, by rw [Dirty, hchain],
      fun i hi => hupdate _ _ _ i (hchain ▸ hi) fun hsi => by rw [hsock si hsi]⟩
  case add.release si so key res =>
    rcases res with ⟨_ | _⟩ | _ <;> cases hd
    refine ⟨_, by rw [Dirty, hchain], fun i hi => ?_⟩
    rcases List.mem_cons.mp hi with rfl | hi
    · rw [Function.update_self, Function.update_self]
    · exact hupdate _ _ _ i (hchain ▸ hi) fun _ => rfl
  case remove.release si key res =>
    rcases res with ⟨_ | _⟩ | _ <;> cases hd
    exact ⟨_, by rw [Dirty, hchain], fun i hi => hsock i (hchain ▸ List.mem_of_mem_erase hi)⟩
  case update.release si raddr rport key res =>
    rcases res with ⟨_ | _⟩ | _ <;> cases hd
    exact ⟨_, by rw [Dirty, hchain],
      fun i hi => hupdate _ _ _ i (hchain ▸ hi) fun hsi => by rw [hsock si hsi]⟩

omit [DecidableEq τ] in
/-- A call that has returned does not disturb those that work on other buckets. -/
theorem At.advance {S' : SockTable.State} (h : At s S c pc) (hsame : SameBucket S S' pc)
    (hadds : ∀ si, Adds c si → ∀ j, si ∉ S'.chain j) : At s S' c pc := by
  have hown := h.own
  refine ⟨?_, fun k hk => ?_, fun si so k hc hpc => ?_, fun k xs f hd => ?_⟩
  · cases c with
    | add si so => exact ⟨hown.1, hown.2.1, hadds si ⟨so, rfl⟩, hown.2.2.2⟩
    | remove si => exact hown
    | update si raddr rport => exact hown
    | get lport raddr rport => exact hown
  · rw [hsame.bucket_eq hk]
    exact h.scan k hk
  · rw [(hsame k (by rw [hpc]; rfl)).1]
    exact h.linked si so k hc hpc
  · obtain ⟨g, hg, hagree⟩ := hsame.dirty hd
    exact (h.dirty k xs g hg).of_agree hagree

/-- `release`: the call takes effect. -/
theorem Sim.release {res : Result} (h : Sim S₀ S s)
    (ht : s.task t = .run c lock (.release k res)) :
    ∃ S', Sim S₀ S' { s.setTask t .idle with done := s.done ++ [(c, res)] } := by
  obtain ⟨S', hexec, hret⟩ := h.returned ht
  have hothers : ∀ u c' lock' pc', ({ s.setTask t .idle with done := s.done ++ [(c, res)] } :
      State τ).task u = .run c' lock' pc' → u ≠ t ∧ s.task u = .run c' lock' pc' := by
    intro u c' lock' pc' hu
    rcases setTask_eq hu with ⟨-, hx⟩ | hu
    · cases hx
    · exact hu
  -- the others work on other buckets, or the call was a `get` and has changed nothing
  have hsame : ∀ u c' lock' pc', u ≠ t → s.task u = .run c' lock' pc' → SameBucket S S' pc' := by
    intro u c' lock' pc' hne hu j hj
    by_cases hjk : j = k
    · subst hjk
      rw [hret.isGet (h.excl t u c lock _ c' lock' pc' j (Ne.symm hne) ht hu rfl hj).1]
      exact ⟨rfl, fun _ _ => rfl⟩
    · exact ⟨hret.chain j hjk, hret.sock j hjk⟩
  refine ⟨S', ?_, fun j i hi => ?_, fun j => ?_, fun j hj => ?_, fun u c' lock' pc' hu => ?_, ?_, ?_⟩
  · have hserial := Serial.snoc c h.serial
    rw [hexec] at hserial
    exact hserial
  · by_cases hjk : j = k
    · subst hjk
      exact hret.link i hi
    · rw [hret.chain j hjk] at hi
      rw [hret.sock j hjk i hi]
      exact h.link j i hi
  · by_cases hjk : j = k
    · subst hjk
      exact hret.nodup
    · rw [hret.chain j hjk]
      exact h.nodup j
  · by_cases hjk : j = k
    · subst hjk
      exact ⟨hret.shows.chain, hret.shows.agree⟩
    · have hshows : Shows s j (S.chain j) S.sock := by
        refine h.shows j fun u c' lock' pc' hu d hd hdj => ?_
        by_cases hut : u = t
        · subst hut
          rw [ht] at hu
          cases hu
          exact hjk (hdj.symm.trans (Option.some.inj (dirty_spec hd).1).symm)
        · obtain ⟨g, hg, -⟩ := (hsame u c' lock' pc' hut hu).symm.dirty hd
          exact hj u c' lock' pc' ((setTask_of_ne _ hut).trans hu) _ hg hdj
      rw [hret.chain j hjk]
      have hagree := hshows.of_agree (hret.sock j hjk)
      exact ⟨hagree.chain, hagree.agree⟩
  · obtain ⟨hne, hu'⟩ := hothers u c' lock' pc' hu
    refine ((h.«at» u c' lock' pc' hu').advance (hsame u c' lock' pc' hne hu') ?_).congr rfl rfl rfl
    rintro si ⟨so, rfl⟩ j hmem
    have hnot := (h.«at» u _ lock' pc' hu').own.2.2.1
    by_cases hjk : j = k
    · subst hjk
      rcases hret.sub si hmem with hmem | ⟨so', rfl⟩
      · exact hnot j hmem
      · exact h.differ t u si so' lock _ so lock' pc' (Ne.symm hne) ht hu'
    · rw [hret.chain j hjk] at hmem
      exact hnot j hmem
  · intro u v c₁ lock₁ pc₁ c₂ lock₂ pc₂ j huv hu hv hj hj'
    exact h.excl u v c₁ lock₁ pc₁ c₂ lock₂ pc₂ j huv (hothers _ _ _ _ hu).2 (hothers _ _ _ _ hv).2 hj hj'
  · intro u v si so lock₁ pc₁ so' lock₂ pc₂ huv hu hv
    exact h.differ u v si so lock₁ pc₁ so' lock₂ pc₂ huv (hothers _ _ _ _ hu).2
      (hothers _ _ _ _ hv).2

/-- A call is made. -/
theorem Sim.startCall (h : Sim S₀ S s) (hs : startCall s t c = some s₁) : Sim S₀ S s₁ := by
  have hidle : s.task t = .idle := by
    cases htask : s.task t with
    | idle => rfl
    | run c' lock' pc' => cases c <;> simp [SockTableRace.startCall, htask] at hs
  have hshows : ∀ k, (∀ u c' lock pc, (s.setTask t (.run c ⟨false, none⟩ .key)).task u =
      .run c' lock pc → ∀ d, Dirty S c' pc = some d → d.1 ≠ k) → Shows s k (S.chain k) S.sock := by
    refine fun k hk => h.shows k fun u c' lock' pc' hu d hd => ?_
    have hut : u ≠ t := by
      rintro rfl
      rw [hidle] at hu
      cases hu
    exact hk u c' lock' pc' (by rwa [setTask_of_ne _ hut]) d hd
  -- a call that stores nothing at first
  have hplain : Own s S none c → (∀ si, ¬ Adds c si) →
      Sim S₀ S (s.setTask t (.run c ⟨false, none⟩ .key)) := by
    intro hown hnadds
    refine h.move (fun _ => id) (fun _ _ => rfl) rfl rfl hshows
      (fun u c lock pc _ hu => h.«at» u c lock pc hu) ?_
    rintro _ _ _ ⟨⟩
    exact ⟨.of_outside hown rfl, fun u c' lock' pc' _ _ => ⟨fun k hk => (nomatch hk),
      fun si hsi => absurd hsi (hnadds si)⟩⟩
  cases c with
  | add si so =>
    simp only [SockTableRace.startCall, hidle] at hs
    split at hs
    · cases hs
    next hmade =>
    have hnot : ∀ k, si ∉ S.chain k := fun k hk => hmade (h.link k si hk).2.1
    have htouch : Touches s { s.setCell si { s.cell si with so := so } with
        made := Function.update s.made si true } none si := by
      refine ⟨fun _ _ => rfl, fun i hi => setCell_of_ne s _ hi, fun i hi => ?_, fun i hi => ?_, rfl, rfl⟩
      · by_cases hne : i = si
        · rw [hne]
          exact Function.update_self ..
        · exact (Function.update_of_ne hne ..).trans hi
      · have hne : i ≠ si := by
          rintro rfl
          exact hmade hi
        exact congrArg (fun x => x.so.lport) (setCell_of_ne s { s.cell si with so := so } hne)
    have hnadds : ∀ u c' lock' pc', s.task u = .run c' lock' pc' → ¬ Adds c' si := by
      rintro u c' lock' pc' hu ⟨so', rfl⟩
      exact hmade (h.«at» u _ lock' pc' hu).own.1
    cases hs
    refine h.move htouch.made htouch.lport rfl rfl
      (fun k hk => (hshows k hk).frame htouch (by simp) (hnot k)) (fun u c' lock' pc' _ hu => ?_) ?_
    · refine (h.«at» u c' lock' pc' hu).frame htouch (by simp) (hnadds u c' lock' pc' hu)
        fun k _ => hnot k
    · rintro _ _ _ ⟨⟩
      refine ⟨.of_outside ⟨Function.update_self .., ?_, hnot, fun k hk => (nomatch hk)⟩ rfl,
        fun u c' lock' pc' _ hu => ⟨fun k hk => (nomatch hk), ?_⟩⟩
      · exact congrArg Cell.so (setCell_self s si { s.cell si with so := so })
      · rintro i ⟨so', hadd⟩
        cases hadd
        exact hnadds u c' lock' pc' hu
  | remove si =>
    simp only [SockTableRace.startCall, hidle] at hs
    split at hs
    · next hmade =>
      cases hs
      exact hplain ⟨hmade, fun k hk => (nomatch hk)⟩ fun i hi => (nomatch hi.choose_spec)
    · cases hs
  | update si raddr rport =>
    simp only [SockTableRace.startCall, hidle] at hs
    split at hs
    · next hmade =>
      cases hs
      exact hplain ⟨hmade, fun k hk => (nomatch hk)⟩ fun i hi => (nomatch hi.choose_spec)
    · cases hs
  | get lport raddr rport =>
    simp only [SockTableRace.startCall, hidle] at hs
    cases hs
    exact hplain (fun k hk => (nomatch hk)) fun i hi => (nomatch hi.choose_spec)

/-- One step of a CPU. -/
theorem Sim.stepTask (h : Sim S₀ S s) (hex : Exclusive s (.step t))
    (hs : stepTask s t = some s₁) : ∃ S', Sim S₀ S' s₁ := by
  simp only [SockTableRace.stepTask] at hs
  split at hs
  · cases hs
  · next c lock key res ht =>
    split at hs
    · cases hs
      exact h.release ht
    · cases hs
  · next c lock pc hpc ht =>
    split at hs
    · next s' pc' hst =>
      cases hs
      refine ⟨S, ?_⟩
      cases c <;> cases pc <;> simp only [stores, reduceCtorEq, Option.some.injEq, Prod.mk.injEq] at hst
      all_goals obtain ⟨rfl, rfl⟩ := hst
      · exact h.addLink ht
      · exact h.addStore ht
      · exact h.remStore ht
      · exact h.updRaddr ht
      · exact h.updRport ht
    · obtain ⟨⟨lock', pc'⟩, hl, rfl⟩ := Option.map_eq_some_iff.mp hs
      exact ⟨S, h.load ht hex hl⟩

/-- No call has been made. -/
theorem Sim.init (h0 : (system τ).init s) :
    Sim ⟨fun i => (s.cell i).so, fun _ => []⟩ ⟨fun i => (s.cell i).so, fun _ => []⟩ s := by
  obtain ⟨hempty, hidle, -, hdone⟩ := h0
  have hnone : ∀ t c lock pc, s.task t ≠ .run c lock pc := by
    intro t c lock pc ht
    rw [hidle] at ht
    cases ht
  refine ⟨?_, fun k i hi => absurd hi List.not_mem_nil, fun _ => List.nodup_nil, fun k _ => ?_,
    fun t c lock pc ht => absurd ht (hnone t c lock pc),
    fun t _ c lock pc _ _ _ _ _ ht => absurd ht (hnone t c lock pc),
    fun t _ _ _ lock pc _ _ _ _ ht => absurd ht (hnone t _ lock pc)⟩
  · rw [hdone]
    exact .nil
  · refine ⟨?_, fun i hi => absurd hi List.not_mem_nil⟩
    rw [(hempty k).1]
    exact .nil none

end Steps

/-! ## Runs -/

/-- The table after `sockinit`, with an idle CPU for each `τ` -/
def initial (τ : Type*) : State τ where
  sockets _ := none
  cell _ := ⟨⟨0, 0, 0, false⟩, none⟩
  locks _ := ⟨false, none⟩
  task _ := .idle
  made _ := false
  done := []

def Task.isIdle {τ : Type*} : Task τ → Bool
  | .idle => true
  | .run _ _ _ => false

end Xv6.Kernel.SockTableRace
