import Mathlib
import Xv6.Kernel.Riscv
import Xv6.Kernel.SockTable
import Xv6.Kernel.TcpPanic

/-!
# Sockets that cannot be made

`sockalloc` and `sockaccept` take a file and a page, fill both in, and put the socket into the table.
Where something fails they go to `bad`, which frees the page and closes the file.

The file is one for the socket by then, and closing it closes the socket, in the page that has just
been freed. And `sockaccept` passes on what `tcp_api_accept` returns: if that is -1, the file, the page
and the socket in the table stay behind.

- `sockalloc_iff`, `sockaccept_iff`: the calls that clean up;
- `create_iff`: both.
-/

namespace Xv6.Kernel.SockCreate

open Xv6.Kernel.Tcp (TcpCb TcpState)
open Xv6.Kernel.TcpWakeup (initClient)
open Xv6.Kernel.TcpPanic (junkTcpcb tcpApiClose)

/-! ## Files, pages and sockets -/

def NFILE : ℕ := 100

def SOCK_STREAM : UInt32 := 1

inductive FileType where
  | none
  | pipe
  | inode
  | device
  | sock
  deriving DecidableEq

/-- `struct file` -/
structure File where
  type : FileType
  ref : ℕ
  readable : Bool
  writable : Bool
  sock : ℕ
  /-- A file that nobody refers to has no type: `fileclose` takes it away. -/
  idle : ref = 0 → type = .none

/-- The pages of `kalloc`, by page number -/
structure Pages where
  /-- `end`, the first address after the kernel -/
  kend : ℕ
  /-- `ref_cnt[]` -/
  refCnt : ℕ → ℕ
  /-- The free lists, from the page on that this CPU takes next -/
  freelist : List ℕ
  nodup : freelist.Nodup
  unused : ∀ q ∈ freelist, refCnt q = 0
  inRange : ∀ q ∈ freelist, kend ≤ q * PGSIZE ∧ q * PGSIZE < PHYSTOP

/-- A page that `find_swapping_page` has taken from a process -/
structure Victim (k : Pages) where
  page : ℕ
  /-- The count is 1 again after `kincget`. -/
  count : k.refCnt page = 1
  inRange : k.kend ≤ page * PGSIZE ∧ page * PGSIZE < PHYSTOP

namespace Pages

/-- The pages in use -/
def allocated (k : Pages) : Set ℕ := { q | 1 ≤ k.refCnt q }

/-- `kalloc()`, where `evict` is `find_swapping_page` -/
def kalloc (evict : (k : Pages) → Option (Victim k)) (k : Pages) : Option (ℕ × Pages) :=
  match hfree : k.freelist with
  | [] => (evict k).map fun v => (v.page, k)
  | q :: rest =>
    some (q,
      { k with
        refCnt := Function.update k.refCnt q (k.refCnt q + 1)
        freelist := rest
        nodup := (List.nodup_cons.mp (hfree ▸ k.nodup)).2
        unused := fun p hp => by
          have hne : p ≠ q := fun heq => (List.nodup_cons.mp (hfree ▸ k.nodup)).1 (heq ▸ hp)
          rw [Function.update_of_ne hne]
          exact k.unused p (hfree ▸ List.mem_cons_of_mem q hp)
        inRange := fun p hp => k.inRange p (hfree ▸ List.mem_cons_of_mem q hp) })

/-- `kfree(q)`, and whether the page is free then -/
def kfree (k : Pages) (q : ℕ) : Except String (Bool × Pages) :=
  if hrange : q * PGSIZE < k.kend ∨ PHYSTOP ≤ q * PGSIZE then .error "kfree"
  else if hcount : k.refCnt q < 1 then .error "kfree ref_cnt"
  else
    have hq : q ∉ k.freelist := fun hmem => hcount (by rw [k.unused q hmem]; exact Nat.one_pos)
    have hold : ∀ p ∈ k.freelist, Function.update k.refCnt q (k.refCnt q - 1) p = 0 := fun p hp => by
      have hne : p ≠ q := fun heq => hq (heq ▸ hp)
      rw [Function.update_of_ne hne]
      exact k.unused p hp
    if hlast : k.refCnt q - 1 > 0 then
      .ok (false, { k with refCnt := Function.update k.refCnt q (k.refCnt q - 1), unused := hold })
    else
      .ok (true,
        { k with
          refCnt := Function.update k.refCnt q (k.refCnt q - 1)
          freelist := q :: k.freelist
          nodup := List.nodup_cons.mpr ⟨hq, k.nodup⟩
          unused := fun p hp => by
            rcases List.mem_cons.mp hp with rfl | hp
            · rw [Function.update_self]
              exact Nat.eq_zero_of_not_pos hlast
            · exact hold p hp
          inRange := fun p hp => by
            rcases List.mem_cons.mp hp with rfl | hp
            · exact ⟨Nat.le_of_not_lt fun h => hrange (.inl h), Nat.lt_of_not_le fun h => hrange (.inr h)⟩
            · exact k.inRange p hp })

end Pages

/-- `rxq`, or the bytes of a page that has been freed where its head is expected -/
inductive Rxq where
  | packets (ms : List ℕ)
  | junk

/-- `struct sock` -/
structure Sock where
  type : UInt8
  raddr : UInt32
  lport : UInt16
  rport : UInt16
  /-- `tcpcb.parent` is set. -/
  parent : Bool
  tcpcb : TcpCb
  rxq : Rxq

/-- What is read from a page that `kfree` has filled with bytes 1 -/
def freedSock : Sock where
  type := 1
  raddr := 0x01010101
  lport := 0x0101
  rport := 0x0101
  parent := true
  tcpcb :=
    { state := .listen
      iss := 0x01010101
      irs := 0x01010101
      snd := ⟨0x01010101, 0x01010101⟩
      rcv := ⟨0x01010101, 0x0101⟩ }
  rxq := .junk

structure State where
  /-- `ftable.file[]` -/
  file : ℕ → File
  pages : Pages
  /-- The page as a `struct sock` -/
  sock : ℕ → Sock
  /-- `sockets[]` -/
  sockets : ℕ → List ℕ

/-- What a call ends with -/
inductive Outcome where
  | panics (msg : String)
  /-- It is asleep. -/
  | sleeps
  /-- It returns 0 or -1. -/
  | returns (ok : Bool) (s : State)

namespace State

variable (s : State)

def setFile (f : ℕ) (file : File) : State := { s with file := Function.update s.file f file }

def setSock (si : ℕ) (so : Sock) : State := { s with sock := Function.update s.sock si so }

/-- `filealloc()` -/
def filealloc : Option (ℕ × State) :=
  ((List.range NFILE).find? fun f => (s.file f).ref = 0).map fun f =>
    (f, s.setFile f { s.file f with ref := 1, idle := fun h => absurd h Nat.one_ne_zero })

/-- `kalloc()`. What the page is filled with is overwritten, but for the control block. -/
def kalloc (evict : (k : Pages) → Option (Victim k)) : Option (ℕ × State) :=
  (s.pages.kalloc evict).map fun (q, pages) => (q, { s with pages := pages })

/-- `kfree(q)` -/
def kfree (q : ℕ) : Except String State :=
  match s.pages.kfree q with
  | .error e => .error e
  | .ok (false, pages) => .ok { s with pages := pages }
  | .ok (true, pages) => .ok ({ s with pages := pages }.setSock q freedSock)

/-- What the table reads of the sockets -/
def table : SockTable.State where
  sock := fun si =>
    let so := s.sock si
    { lport := so.lport, raddr := so.raddr, rport := so.rport, parent := so.parent }
  chain := s.sockets

/-- `sock_hashtable_add(lport, raddr, rport, si)`; `none` for -1 -/
def sockHashtableAdd (lport : UInt16) (raddr : UInt32) (rport : UInt16) (si : ℕ) : Option State :=
  match s.table.sockHashtableAdd lport raddr rport si with
  | (t, true) => some { s with sockets := t.chain }
  | (_, false) => none

/-- `sock_hashtable_remove(si)` -/
def sockHashtableRemove (si : ℕ) : State :=
  { s with sockets := (s.table.sockHashtableRemove si).1.chain }

/-- `sockclose(si)` -/
def sockclose (si : ℕ) : Except String State :=
  let so := s.sock si
  let s :=
    if so.type.toUInt32 = SOCK_STREAM then s.setSock si { so with tcpcb := (tcpApiClose so.tcpcb).1 }
    else s
  let s := s.sockHashtableRemove si
  match so.rxq with
  -- `mbufq_pophead` reads the packet at 0x0101010101010101
  | .junk => .error "kerneltrap"
  | .packets ms => (ms.foldlM State.kfree s).bind fun s => s.kfree si

end State

/-! ## The calls -/

section Calls

variable (evict : (k : Pages) → Option (Victim k))
  -- `pipeclose`, or `iput` in a transaction
  (closeOther : File → State → Except String State)

/-- `fileclose(f)` -/
def State.fileclose (s : State) (f : ℕ) : Except String State :=
  let ff := s.file f
  if ff.ref < 1 then .error "fileclose"
  else if hlive : ff.ref - 1 > 0 then
    .ok (s.setFile f { ff with ref := ff.ref - 1, idle := fun h => absurd h hlive.ne' })
  else
    let s := s.setFile f { ff with ref := 0, type := .none, idle := fun _ => rfl }
    match ff.type with
    | .none => .ok s
    | .sock => s.sockclose ff.sock
    | _ => closeOther ff s

/-- The label `bad` of both calls -/
def State.bad (s : State) (si f : Option ℕ) : Outcome :=
  let s :=
    match si with
    | some si => s.kfree si
    | none => .ok s
  let s :=
    match f with
    | some f => s.bind fun s => s.fileclose closeOther f
    | none => s
  match s with
  | .error e => .panics e
  | .ok s => .returns false s

/-- What a process that sleeps on a control block finds there each time it looks, and if it has been
    killed -/
structure Wait where
  looks : List (TcpCb × Bool)
  /-- `p->killed` behind the loop -/
  killed : Bool

/-- `while (cb->state == st && !p->killed) sleep(...)`; `none` if it does not end. -/
def waitLoop (st : TcpState) : List (TcpCb × Bool) → Option TcpCb
  | [] => none
  | (cb, killed) :: looks => if cb.state = st ∧ killed = false then waitLoop st looks else some cb

/-- `tcp_api_accept(si)`: the control block behind it, and whether it returns 0 -/
def tcpApiAccept (w : Wait) : Option (TcpCb × Bool) :=
  match w.looks with
  | [] => none
  | (cb, _) :: _ =>
    if cb.state ≠ .listen then some (cb, false)
    else (waitLoop .listen w.looks).map fun cb => (cb, !w.killed)

/-- A file for the socket -/
def State.sockFile (s : State) (f si : ℕ) : State :=
  let file := s.file f
  if h : file.ref = 0 then s
  else
    s.setFile f
      { file with type := .sock, readable := true, writable := true, sock := si, idle := fun h' => absurd h' h }

/-- The socket that `sockalloc` fills in -/
def newSock (raddr : UInt32) (lport rport : UInt16) (sockType : UInt32) : Sock where
  type := sockType.toUInt8
  raddr := raddr
  lport := lport
  rport := rport
  parent := false
  tcpcb := junkTcpcb
  rxq := .packets []

/-- `sockalloc(f, raddr, lport, rport, sock_type, is_client)`, where `rand` is the initial send
    sequence number -/
def sockalloc (s : State) (raddr : UInt32) (lport rport : UInt16) (sockType : UInt32)
    (isClient : Bool) (rand : UInt32) (w : Wait) : Outcome :=
  match s.filealloc with
  | none => s.bad closeOther none none
  | some (f, s) =>
    match s.kalloc evict with
    | none => s.bad closeOther none (some f)
    | some (si, s) =>
      let so := newSock raddr lport rport sockType
      let s := (s.setSock si so).sockFile f si
      match s.sockHashtableAdd lport raddr rport si with
      | none => s.bad closeOther (some si) (some f)
      | some s =>
        if sockType = SOCK_STREAM then
          if isClient then
            -- what `tcp_init_client` returns is not looked at
            match waitLoop .synSent ((initClient so.tcpcb rand, false) :: w.looks) with
            | none => .sleeps
            | some cb => .returns true (s.setSock si { so with tcpcb := cb })
          else .returns true (s.setSock si { so with tcpcb := { so.tcpcb with state := .listen } })
        else .returns true s

/-- The socket that `sockaccept` fills in -/
def acceptSock (osi : Sock) : Sock :=
  { osi with raddr := 0, rport := 0, parent := true, rxq := .packets [] }

/-- `sockaccept` takes the socket for one that listens. -/
def Listens (osi : Sock) : Prop :=
  osi.type.toUInt32 = SOCK_STREAM ∧ osi.rport = 0 ∧ osi.raddr = 0 ∧ osi.parent = false

instance (osi : Sock) : Decidable (Listens osi) := inferInstanceAs (Decidable (_ ∧ _ ∧ _ ∧ _))

/-- `sockaccept(osi, f)` -/
def sockaccept (s : State) (osi : ℕ) (w : Wait) : Outcome :=
  if Listens (s.sock osi) then
    let old := s.sock osi
    match s.filealloc with
    | none => s.bad closeOther none none
    | some (f, s) =>
      match s.kalloc evict with
      | none => s.bad closeOther none (some f)
      | some (si, s) =>
        let s := (s.setSock si (acceptSock old)).sockFile f si
        match s.sockHashtableAdd old.lport 0 0 si with
        | none => s.bad closeOther (some si) (some f)
        | some s =>
          match tcpApiAccept w with
          | none => .sleeps
          | some (cb, ok) => .returns ok (s.setSock si { acceptSock old with tcpcb := cb })
  else .returns false s

end Calls

/-! ## What has to hold -/

/-- **The call cleans up**: it does not panic, and if it returns -1, the files, the sockets in the table
    and the pages in use are those from before. -/
def Clean (s : State) : Outcome → Prop
  | .panics _ => False
  | .sleeps => True
  | .returns ok t => ok = false →
      t.file = s.file ∧ t.sockets = s.sockets ∧ t.pages.allocated = s.pages.allocated

/-- There are a file `f` and a page `si`; `t` is the state behind `filealloc` and `kalloc`. -/
def Makes (evict : (k : Pages) → Option (Victim k)) (s : State) (f si : ℕ) (t : State) : Prop :=
  ∃ s₁, s.filealloc = some (f, s₁) ∧ s₁.kalloc evict = some (si, t)

/-- A socket in the table has the local port. -/
def PortTaken (s : State) (lport : UInt16) : Prop :=
  ∃ pos ∈ s.sockets (SockTable.hash lport), (s.sock pos).lport = lport

/-- The socket still listens when `tcp_api_accept` first looks at it, and the process has not been killed
    at the end of the wait, if it ends. -/
def Waits (w : Wait) : Prop :=
  (∀ look ∈ w.looks.head?, look.1.state = .listen) ∧
    ((∃ look ∈ w.looks, look.1.state ≠ .listen ∨ look.2 = true) → w.killed = false)

/-! ## The parts of a call -/

section Parts

variable {evict : (k : Pages) → Option (Victim k)} {closeOther : File → State → Except String State}
  {s s₁ t : State} {f si : ℕ}

theorem File.ext {x y : File} (htype : x.type = y.type) (href : x.ref = y.ref)
    (hreadable : x.readable = y.readable) (hwritable : x.writable = y.writable)
    (hsock : x.sock = y.sock) : x = y := by
  cases x
  cases y
  simp_all

@[simp] theorem setFile_file_self (s : State) (f : ℕ) (file : File) : (s.setFile f file).file f = file :=
  Function.update_self _ _ _

theorem setFile_setFile (s : State) (f : ℕ) (file file' : File) :
    (s.setFile f file).setFile f file' = s.setFile f file' := by
  unfold State.setFile
  dsimp only
  rw [Function.update_idem]

theorem filealloc_spec (h : s.filealloc = some (f, s₁)) : (s.file f).ref = 0 ∧
    s₁ = s.setFile f { s.file f with ref := 1, idle := fun h => absurd h Nat.one_ne_zero } := by
  rw [State.filealloc, Option.map_eq_some_iff] at h
  obtain ⟨g, hfind, heq⟩ := h
  cases heq
  exact ⟨by simpa using List.find?_some hfind, rfl⟩

/-- A new page has one reference. -/
theorem kalloc_spec (h : s.kalloc evict = some (si, t)) :
    t.pages.refCnt si = 1 ∧ (t.pages.kend ≤ si * PGSIZE ∧ si * PGSIZE < PHYSTOP) ∧ t.file = s.file ∧
      t.sockets = s.sockets ∧ t.sock = s.sock := by
  rw [State.kalloc, Option.map_eq_some_iff] at h
  obtain ⟨⟨q, pages⟩, hk, heq⟩ := h
  cases heq
  unfold Pages.kalloc at hk
  split at hk
  · rw [Option.map_eq_some_iff] at hk
    obtain ⟨v, -, heq⟩ := hk
    cases heq
    exact ⟨v.count, v.inRange, rfl, rfl, rfl⟩
  · next q rest hfree =>
    cases hk
    have hmem : si ∈ s.pages.freelist := hfree ▸ List.mem_cons_self
    refine ⟨?_, s.pages.inRange si hmem, rfl, rfl, rfl⟩
    show Function.update s.pages.refCnt si (s.pages.refCnt si + 1) si = 1
    rw [Function.update_self, s.pages.unused si hmem]

/-- The last reference to a page is dropped: it is filled with junk. -/
theorem kfree_last (hcount : s.pages.refCnt si = 1)
    (hrange : s.pages.kend ≤ si * PGSIZE ∧ si * PGSIZE < PHYSTOP) :
    ∃ t, s.kfree si = .ok t ∧ t.sock si = freedSock ∧ t.file = s.file := by
  unfold State.kfree Pages.kfree
  rw [dif_neg (not_or.mpr ⟨Nat.not_lt.mpr hrange.1, Nat.not_le.mpr hrange.2⟩),
    dif_neg (by rw [hcount]; exact Nat.lt_irrefl 1), dif_neg (by rw [hcount]; exact Nat.lt_irrefl 0)]
  exact ⟨_, rfl, Function.update_self _ _ _, rfl⟩

/-- Closing a socket in a page that has been freed faults. -/
theorem sockclose_freed (h : s.sock si = freedSock) : s.sockclose si = .error "kerneltrap" := by
  unfold State.sockclose
  rw [h]
  rfl

/-- A new file is closed, and the table is as it was. -/
theorem fileclose_new (h : s.filealloc = some (f, s₁)) : s₁.fileclose closeOther f = .ok s := by
  obtain ⟨href, rfl⟩ := filealloc_spec h
  have htype := (s.file f).idle href
  have hback : s.setFile f (File.mk .none 0 (s.file f).readable (s.file f).writable (s.file f).sock
      fun _ => rfl) = s := by
    rw [File.ext (x := File.mk ..) (y := s.file f) htype.symm href.symm rfl rfl rfl]
    unfold State.setFile
    rw [Function.update_eq_self]
  unfold State.fileclose
  simp only [setFile_file_self, setFile_setFile, htype]
  rw [if_neg (Nat.lt_irrefl 1), dif_neg (Nat.lt_irrefl 0)]
  exact congrArg Except.ok hback

/-- Freeing the page and closing the file behind it panics. -/
theorem bad_panics (hcount : s.pages.refCnt si = 1)
    (hrange : s.pages.kend ≤ si * PGSIZE ∧ si * PGSIZE < PHYSTOP) (href : (s.file f).ref = 1)
    (htype : (s.file f).type = .sock) (hsock : (s.file f).sock = si) :
    s.bad closeOther (some si) (some f) = .panics "kerneltrap" := by
  obtain ⟨t, hfree, hjunk, hfile⟩ := kfree_last hcount hrange
  rw [← hfile] at href htype hsock
  have hclose : t.fileclose closeOther f = .error "kerneltrap" := by
    unfold State.fileclose
    dsimp only
    rw [if_neg (by rw [href]; exact Nat.lt_irrefl 1), dif_neg (by rw [href]; exact Nat.lt_irrefl 0), htype]
    dsimp only
    rw [hsock]
    exact sockclose_freed hjunk
  unfold State.bad
  simp only [hfree, Except.bind, hclose]

/-- The file for the socket, in the state in which the socket is put into the table -/
structure Filled (s t : State) (f si : ℕ) : Prop where
  pages : t.pages.refCnt si = 1
  inRange : t.pages.kend ≤ si * PGSIZE ∧ si * PGSIZE < PHYSTOP
  ref : (t.file f).ref = 1
  type : (t.file f).type = .sock
  sock : (t.file f).sock = si
  /-- Before the call nobody referred to it. -/
  was : (s.file f).ref = 0

theorem filled (h : Makes evict s f si t) (so : Sock) :
    Filled s ((t.setSock si so).sockFile f si) f si := by
  obtain ⟨s₁, halloc, hk⟩ := h
  obtain ⟨href, rfl⟩ := filealloc_spec halloc
  obtain ⟨hcount, hrange, hfile, -⟩ := kalloc_spec hk
  have href' : ((t.setSock si so).file f).ref = 1 := by
    show (t.file f).ref = 1
    rw [hfile, setFile_file_self]
  unfold State.sockFile
  dsimp only
  rw [dif_neg (by rw [href']; exact Nat.one_ne_zero)]
  refine ⟨hcount, hrange, ?_, ?_, ?_, href⟩ <;> rw [setFile_file_self]
  exact href'

theorem Filled.bad (h : Filled s t f si) : t.bad closeOther (some si) (some f) = .panics "kerneltrap" :=
  bad_panics h.pages h.inRange h.ref h.type h.sock

/-- A call that returns -1 and leaves the file behind does not clean up. -/
theorem Filled.not_clean (h : Filled s t f si) {u : State} (hu : u.file = t.file) :
    ¬ Clean s (.returns false u) := by
  intro hc
  have hwas := h.was
  rw [← (hc rfl).1, hu, h.ref] at hwas
  cases hwas

/-- A call that finds no page closes the file again. -/
theorem bad_new (h : s.filealloc = some (f, s₁)) : s₁.bad closeOther none (some f) = .returns false s := by
  unfold State.bad
  simp only [Except.bind, fileclose_new h]

/-- `sock_hashtable_add` gives up if and only if the port is taken, but for the sockets of `accept`. -/
theorem sockHashtableAdd_none (s : State) (si : ℕ) (lport : UInt16) (raddr : UInt32) (rport : UInt16)
    (hlport : (s.sock si).lport = lport) (hraddr : (s.sock si).raddr = raddr)
    (hrport : (s.sock si).rport = rport) : s.sockHashtableAdd lport raddr rport si = none ↔
      PortTaken s lport ∧ ¬ (raddr = 0 ∧ rport = 0 ∧ (s.sock si).parent = true) := by
  have hclash : (s.sockets (SockTable.hash lport)).any (s.table.clashes lport raddr rport si) = true ↔
      PortTaken s lport ∧ ¬ (raddr = 0 ∧ rport = 0 ∧ (s.sock si).parent = true) := by
    simp only [List.any_eq_true, SockTable.State.clashes, State.table, hraddr, hrport, PortTaken]
    constructor
    · rintro ⟨pos, hpos, h⟩
      simp only [beq_self_eq_true, Bool.and_true, Bool.and_eq_true, beq_iff_eq, Bool.not_eq_true',
        Bool.and_eq_false_iff] at h
      refine ⟨⟨pos, hpos, h.1⟩, ?_⟩
      rintro ⟨h1, h2, h3⟩
      simp [h1, h2, h3] at h
    · rintro ⟨⟨pos, hpos, h⟩, hno⟩
      refine ⟨pos, hpos, ?_⟩
      simp only [h, beq_self_eq_true, Bool.and_true, Bool.true_and, Bool.not_eq_true',
        ← Bool.not_eq_true, Bool.and_eq_true, beq_iff_eq]
      tauto
  rw [← hclash]
  unfold State.sockHashtableAdd SockTable.State.sockHashtableAdd
  dsimp only
  rw [show SockTable.hash (s.table.sock si).lport = SockTable.hash lport from congrArg _ hlport]
  by_cases h : (s.sockets (SockTable.hash lport)).any (s.table.clashes lport raddr rport si) = true
  · rw [if_pos (show (s.table.chain _).any _ = true from h)]
    exact iff_of_true rfl h
  · rw [if_neg (show ¬ (s.table.chain _).any _ = true from h)]
    exact iff_of_false (by rintro ⟨⟩) h

theorem sockFile_sock (s : State) (f si : ℕ) : (s.sockFile f si).sock = s.sock := by
  unfold State.sockFile
  dsimp only
  split
  · rfl
  · rfl

theorem sockFile_sockets (s : State) (f si : ℕ) : (s.sockFile f si).sockets = s.sockets := by
  unfold State.sockFile
  dsimp only
  split
  · rfl
  · rfl

theorem portTaken_sockFile (s : State) (f si : ℕ) (lport : UInt16) :
    PortTaken (s.sockFile f si) lport ↔ PortTaken s lport := by
  rw [PortTaken, PortTaken, sockFile_sock, sockFile_sockets]

/-- The socket that is put into the table is the one that has been filled in. -/
theorem sockFile_setSock (s : State) (f si : ℕ) (so : Sock) :
    ((s.setSock si so).sockFile f si).sock si = so := by
  rw [sockFile_sock]
  exact Function.update_self _ _ _

/-! ## The calls clean up -/

/-- A page is used only where there are a file and a page. -/
theorem not_makes_of_filealloc (h : s.filealloc = none) : ¬ Makes evict s f si t := by
  rintro ⟨s₁, halloc, -⟩
  rw [h] at halloc
  cases halloc

theorem not_makes_of_kalloc (h : s.filealloc = some (f, s₁)) (hk : s₁.kalloc evict = none)
    (g sj : ℕ) : ¬ Makes evict s g sj t := by
  rintro ⟨s₂, halloc, hk'⟩
  rw [h] at halloc
  cases halloc
  rw [hk] at hk'
  cases hk'

/-- What is made is made once. -/
theorem makes_unique (h : Makes evict s f si t) {g sj : ℕ} {u : State} (h' : Makes evict s g sj u) :
    g = f ∧ sj = si ∧ u = t := by
  obtain ⟨s₁, halloc, hk⟩ := h
  obtain ⟨s₂, halloc', hk'⟩ := h'
  rw [halloc] at halloc'
  cases halloc'
  rw [hk] at hk'
  cases hk'
  exact ⟨rfl, rfl, rfl⟩

/-- **`sockalloc` cleans up** if and only if no socket has the port, where there are a file and a page. -/
theorem sockalloc_iff {raddr : UInt32} {lport rport : UInt16} {sockType : UInt32} {isClient : Bool}
    {rand : UInt32} {w : Wait} :
    Clean s (sockalloc evict closeOther s raddr lport rport sockType isClient rand w) ↔
      ∀ f si t, Makes evict s f si t →
        ¬ PortTaken (t.setSock si (newSock raddr lport rport sockType)) lport := by
  unfold sockalloc
  cases halloc : s.filealloc with
  | none => exact iff_of_true (fun _ => ⟨rfl, rfl, rfl⟩) fun f si t h => absurd h (not_makes_of_filealloc halloc)
  | some p =>
    obtain ⟨f, s₁⟩ := p
    dsimp only
    cases hk : s₁.kalloc evict with
    | none =>
      dsimp only
      rw [bad_new halloc]
      exact iff_of_true (fun _ => ⟨rfl, rfl, rfl⟩) fun g sj t h => absurd h (not_makes_of_kalloc halloc hk g sj)
    | some p =>
      obtain ⟨si, t⟩ := p
      dsimp only
      have hmakes : Makes evict s f si t := ⟨s₁, halloc, hk⟩
      set so := newSock raddr lport rport sockType with hso
      have hfilled := filled hmakes so
      have hsock := sockFile_setSock t f si so
      have hadd := sockHashtableAdd_none ((t.setSock si so).sockFile f si) si lport raddr rport
        (by rw [hsock, hso]; rfl) (by rw [hsock, hso]; rfl)
        (by rw [hsock, hso]; rfl)
      rw [hsock, portTaken_sockFile, and_iff_left (fun h => nomatch h.2.2)] at hadd
      cases h : ((t.setSock si so).sockFile f si).sockHashtableAdd lport raddr rport si with
      | none =>
        -- the page is freed, and then the file closed
        dsimp only
        rw [hfilled.bad]
        exact iff_of_false id fun hfree => hfree f si t hmakes (hadd.mp h)
      | some u =>
        have hfree : ¬ PortTaken (t.setSock si so) lport := fun htaken => by
          rw [hadd.mpr htaken] at h
          cases h
        refine iff_of_true ?_ fun g sj t' h' => ?_
        · dsimp only
          split_ifs
          · split
            · trivial
            · exact nofun
          · exact nofun
          · exact nofun
        · obtain ⟨rfl, rfl, rfl⟩ := makes_unique hmakes h'
          exact hfree

theorem waitLoop_isSome {st : TcpState} {looks : List (TcpCb × Bool)} {cb : TcpCb}
    (h : waitLoop st looks = some cb) : ∃ look ∈ looks, look.1.state ≠ st ∨ look.2 = true := by
  induction looks with
  | nil => cases h
  | cons look looks ih =>
    unfold waitLoop at h
    split at h
    · obtain ⟨look', hmem, hend⟩ := ih h
      exact ⟨look', List.mem_cons_of_mem _ hmem, hend⟩
    · next hend =>
      refine ⟨look, List.mem_cons_self, ?_⟩
      rcases not_and_or.mp hend with hst | hkilled
      · exact .inl hst
      · exact .inr (by simpa using hkilled)

/-- A wait that sees something else, or that the process has been killed, ends. -/
theorem waitLoop_ends {st : TcpState} {looks : List (TcpCb × Bool)}
    (h : ∃ look ∈ looks, look.1.state ≠ st ∨ look.2 = true) : ∃ cb, waitLoop st looks = some cb := by
  induction looks with
  | nil =>
    obtain ⟨look, hmem, -⟩ := h
    cases hmem
  | cons look looks ih =>
    unfold waitLoop
    split
    · next hwait =>
      obtain ⟨look', hmem, hend⟩ := h
      rcases List.mem_cons.mp hmem with rfl | hmem
      · rcases hend with hst | hkilled
        · exact absurd hwait.1 hst
        · exact nomatch hwait.2.symm.trans hkilled
      · exact ih ⟨look', hmem, hend⟩
    · exact ⟨look.1, rfl⟩

/-- `tcp_api_accept` returns -1 if and only if the process does not wait, or is killed. -/
theorem tcpApiAccept_iff {w : Wait} : (∀ cb, tcpApiAccept w ≠ some (cb, false)) ↔ Waits w := by
  obtain ⟨looks, killed⟩ := w
  cases looks with
  -- No turn of the wait loop: the call neither returns nor is killed.
  | nil =>
    refine iff_of_true (fun cb h => nomatch h) ⟨nofun, ?_⟩
    rintro ⟨look, hmem, -⟩
    cases hmem
  | cons look looks =>
    unfold tcpApiAccept Waits
    by_cases hst : look.1.state = .listen
    · dsimp only
      rw [if_neg (not_not.mpr hst)]
      constructor
      -- On a listening socket the loop ends with a connection, and only `killed` then turns it into
      -- -1.
      · refine fun h => ⟨fun look' hlook => ?_, fun hend => ?_⟩
        · cases hlook
          exact hst
        · obtain ⟨cb, hcb⟩ := waitLoop_ends hend
          rw [hcb] at h
          cases killed with
          | false => rfl
          | true => exact absurd rfl (h cb)
      · rintro ⟨-, hkilled⟩ cb hcb
        rw [Option.map_eq_some_iff] at hcb
        obtain ⟨cb', hloop, heq⟩ := hcb
        have hno := hkilled (waitLoop_isSome hloop)
        rw [hno] at heq
        cases heq
    · dsimp only
      -- The socket is not in the state LISTEN: -1 at once.
      rw [if_pos hst]
      exact iff_of_false (fun h => h look.1 rfl) fun h => hst (h.1 look rfl)

/-- **`sockaccept` cleans up** if and only if the process waits, and is not killed, where there are a
    socket that listens, a file and a page. -/
theorem sockaccept_iff {osi : ℕ} {w : Wait} :
    Clean s (sockaccept evict closeOther s osi w) ↔
      (Listens (s.sock osi) → (∃ f si t, Makes evict s f si t) → Waits w) := by
  unfold sockaccept
  by_cases hlistens : Listens (s.sock osi)
  swap
  · rw [if_neg hlistens]
    exact iff_of_true (fun _ => ⟨rfl, rfl, rfl⟩) fun h => absurd h hlistens
  rw [if_pos hlistens, forall_prop_of_true hlistens]
  cases halloc : s.filealloc with
  | none =>
    refine iff_of_true (fun _ => ⟨rfl, rfl, rfl⟩) ?_
    rintro ⟨f, si, t, h⟩
    exact absurd h (not_makes_of_filealloc halloc)
  | some p =>
    obtain ⟨f, s₁⟩ := p
    dsimp only
    cases hk : s₁.kalloc evict with
    | none =>
      dsimp only
      rw [bad_new halloc]
      refine iff_of_true (fun _ => ⟨rfl, rfl, rfl⟩) ?_
      rintro ⟨g, sj, t, h⟩
      exact absurd h (not_makes_of_kalloc halloc hk g sj)
    | some p =>
      obtain ⟨si, t⟩ := p
      dsimp only
      have hmakes : Makes evict s f si t := ⟨s₁, halloc, hk⟩
      set so := acceptSock (s.sock osi) with hso
      have hfilled := filled hmakes so
      have hsock := sockFile_setSock t f si so
      -- the table takes any number of sockets of `accept`
      have hadd := sockHashtableAdd_none ((t.setSock si so).sockFile f si) si (s.sock osi).lport 0 0
        (by rw [hsock]; rfl) (by rw [hsock]; rfl)
        (by rw [hsock]; rfl)
      rw [hsock] at hadd
      rw [forall_prop_of_true ⟨f, si, t, hmakes⟩, ← tcpApiAccept_iff]
      cases h : ((t.setSock si so).sockFile f si).sockHashtableAdd (s.sock osi).lport 0 0 si with
      | none => exact absurd ⟨rfl, rfl, rfl⟩ (hadd.mp h).2
      | some u =>
        have hfile : u.file = ((t.setSock si so).sockFile f si).file := by
          unfold State.sockHashtableAdd at h
          split at h
          · cases h
            rfl
          · cases h
        dsimp only
        cases haccept : tcpApiAccept w with
        | none => exact iff_of_true trivial nofun
        | some r =>
          obtain ⟨cb, ok⟩ := r
          cases ok with
          | true => exact iff_of_true nofun nofun
          | false =>
            refine iff_of_false (hfilled.not_clean ?_) fun hno => hno cb rfl
            exact hfile

/-- **A call that fails releases everything once** if and only if it does not fail on a port that is
    taken, `sockaccept` finds its socket in `LISTEN`, and the process is not killed while it waits. -/
theorem create_iff (evict : (k : Pages) → Option (Victim k))
    (closeOther : File → State → Except String State) (s : State) :
    (∀ raddr lport rport sockType isClient rand w,
      Clean s (sockalloc evict closeOther s raddr lport rport sockType isClient rand w) ↔
        ∀ f si t, Makes evict s f si t →
          ¬ PortTaken (t.setSock si (newSock raddr lport rport sockType)) lport) ∧
    ∀ osi w, Clean s (sockaccept evict closeOther s osi w) ↔
      (Listens (s.sock osi) → (∃ f si t, Makes evict s f si t) → Waits w) :=
  ⟨fun _ _ _ _ _ _ _ => sockalloc_iff, fun _ _ => sockaccept_iff⟩

end Parts

/-! ## A process that is killed in `accept` -/

/-- One page is free, and a socket listens in another one on port 2000. -/
def listening : State where
  file := fun _ => ⟨.none, 0, false, false, 0, fun _ => rfl⟩
  pages :=
    { kend := 2 ^ 31
      refCnt := fun q => if q = 524289 then 1 else 0
      freelist := [524288]
      nodup := List.nodup_singleton _
      unused := by decide
      inRange := by decide }
  sock := fun _ => ⟨1, 0, 2000, 0, false, { junkTcpcb with state := .listen }, .packets []⟩
  sockets := fun key => if key = SockTable.hash 2000 then [524289] else []

/-- The process is killed while it sleeps. -/
def killedWait : Wait where
  looks := [({ junkTcpcb with state := .listen }, false), ({ junkTcpcb with state := .listen }, true)]
  killed := true

theorem killed_accept_leaks : ¬ ∀ (evict : (k : Pages) → Option (Victim k))
    (closeOther : File → State → Except String State) (s : State),
    (∀ raddr lport rport sockType isClient rand w,
      Clean s (sockalloc evict closeOther s raddr lport rport sockType isClient rand w)) ∧
    ∀ osi w, Clean s (sockaccept evict closeOther s osi w) := by
  intro hall
  have hclean := (hall (fun _ => none) (fun _ s => .ok s) listening).2 524289 killedWait
  have hmakes : ∃ f si t, Makes (fun _ => none) listening f si t :=
    ⟨0, 524288, _, _, rfl, rfl⟩
  have hkilled := (sockaccept_iff.mp hclean ⟨rfl, rfl, rfl, rfl⟩ hmakes).2
    ⟨_, List.mem_cons_of_mem _ List.mem_cons_self, .inr rfl⟩
  cases hkilled

end Xv6.Kernel.SockCreate
