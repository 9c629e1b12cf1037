import Mathlib
import Xv6.Kernel.ArpCache
import Xv6.Lib.LinkedList
import Xv6.Lib.TransitionSystem
import Xv6.Lib.WaitingRoom

/-!
# Packets That Wait for ARP

A packet for a host whose hardware address is not known is put into a queue for the host's address, and a reply
hands the packets of that queue to the driver. The list of queues is protected by `arpqlock`; `add_arpq` searches it in
one section and puts a new queue in front of it in a second one, with a head that it has read in between.

- `State`, `Pc`: the queues, which lie in pages of their own, and how far each call has come;
- `step`: one section of `arplock` or `arpqlock`, or one allocation, of any call;
- `Inv`: the list of queues holds what waits, in the sense of the log of the packets and replies;
- `arp_pending`: what holds in every run in which the list is unchanged between the two sections;
- `packet_lost`: two packets for two hosts.

A call of `net_tx_eth` or of `net_rx_arp` has a number, which is also the name of its packet. The requests that are
sent for unknown addresses have buffers of their own and never wait; they are left out.
-/

namespace Xv6.Kernel.ArpPending

open Xv6.Lib Xv6.Kernel.Net
open Xv6.Lib.WaitingRoom (Event)

/-! ## States -/

/-- `struct arpq` -/
structure Arpq where
  next : Option ℕ
  ip : UInt32
  txq : List ℕ
  deriving DecidableEq

/-- How far a call has come -/
inductive Pc where
  | idle
  /-- In `net_tx_eth`, before `arp_lookup` -/
  | lookup (dip : UInt32)
  /-- In `add_arpq`, before the first section -/
  | search (dip : UInt32)
  /-- In `add_arpq`, behind the first section -/
  | alloc (dip : UInt32)
  /-- In `add_arpq`, before the second section -/
  | link (newarpq : ℕ)
  /-- In `net_rx_arp`, before `update_arp` -/
  | rxArp (sip : UInt32) (smac : List UInt8) (tip : UInt32) (op : UInt16)
  /-- In `net_rx_arp`, before `add_arp` -/
  | addArp (sip : UInt32) (smac : List UInt8) (op : UInt16)
  /-- Before `send_remove_arpq` -/
  | remove (sip : UInt32)
  | done

structure State where
  /-- `arp_cache` and `free_arp_idx` -/
  cache : Net.State
  arpqs : Option ℕ
  /-- The pages that are in use for a queue, by number -/
  page : ℕ → Option Arpq
  pc : ℕ → Pc
  /-- The packets that have been handed to `e1000_cache` -/
  sent : List ℕ
  /-- What has become of the packets, newest first -/
  log : List (Event UInt32 ℕ)
  /-- `arpqlock` has been acquired by a call that holds it. -/
  panic : Bool

namespace State

def goto (s : State) (t : ℕ) (pc : Pc) : State := { s with pc := Function.update s.pc t pc }

/-- The loop over the list: the queue for `dip`, with the one before it; `none` if it reads a page that is free -/
def find (page : ℕ → Option Arpq) (dip : UInt32) : ℕ → Option ℕ → Option ℕ → Option (Option (Option ℕ × ℕ))
  | _, _, none => some none
  | 0, _, some _ => none
  | fuel + 1, pre, some pos =>
    match page pos with
    | none => none
    | some q => if q.ip = dip then some (some (pre, pos)) else find page dip fuel (some pos) q.next

/-- The queues of the list; `none` if the list leads to a page that is free -/
def queues (page : ℕ → Option Arpq) : ℕ → Option ℕ → Option (List (UInt32 × List ℕ))
  | _, none => some []
  | 0, some _ => none
  | fuel + 1, some pos => (page pos).bind fun q => (queues page fuel q.next).map ((q.ip, q.txq) :: ·)

end State

/-! ## Steps -/

inductive Act where
  /-- `net_tx_eth(m, ETHTYPE_IP, dip, 0)` is called. -/
  | tx (t : ℕ) (dip : UInt32)
  /-- `net_rx_arp` is called for a valid packet. -/
  | rx (t : ℕ) (sip : UInt32) (smac : List UInt8) (tip : UInt32) (op : UInt16)
  /-- `kalloc` returns a page to `add_arpq`, which reads the head of the list. -/
  | kalloc (t a : ℕ)
  /-- The next section of a call -/
  | run (t : ℕ)

/-- The reply of `net_rx_arp` to a request is a packet of its own, which goes to `net_tx_eth`. -/
def answer (sip : UInt32) (op : UInt16) : Pc := if op = ARP_OP_REQUEST then .lookup sip else .remove sip

/-- `send_remove_arpq(dip)`; the packets go through `net_tx_eth`, which puts them into a queue again if it does not
    find the address. -/
def sendRemoveArpq (fuel : ℕ) (s : State) (t : ℕ) (dip : UInt32) : Option State :=
  match State.find s.page dip fuel none s.arpqs with
  | none => none
  | some none => some { s.goto t .done with log := .call dip :: s.log }
  | some (some (pre, pos)) =>
    match s.page pos with
    | none => none
    | some q =>
      if q.txq ≠ [] ∧ arpLookup s.cache dip = none then some { s with panic := true }
      else
        let (arpqs, page) := match pre with
          | none => (q.next, s.page)
          | some pre => (s.arpqs, Function.update s.page pre ((s.page pre).map fun p => { p with next := q.next }))
        some { s.goto t .done with
          sent := s.sent ++ q.txq
          arpqs := arpqs
          page := Function.update page pos none
          log := .call dip :: s.log }

/-- The next section of the call `t`; there are `npages` pages. -/
def runSection (npages : ℕ) (s : State) (t : ℕ) : Option State :=
  match s.pc t with
  | .idle => none
  | .lookup dip =>
    if arpLookup s.cache dip = none then some (s.goto t (.search dip))
    else some { s.goto t .done with sent := s.sent ++ [t], log := .pass t :: s.log }
  | .search dip =>
    match State.find s.page dip npages none s.arpqs with
    | none => none
    | some none => some (s.goto t (.alloc dip))
    | some (some (_, pos)) =>
      some { s.goto t .done with
        page := Function.update s.page pos ((s.page pos).map fun q => { q with txq := q.txq ++ [t] })
        log := .enter dip t :: s.log }
  | .alloc _ => none
  | .link newarpq =>
    match s.page newarpq with
    | none => none
    | some q => some { s.goto t .done with arpqs := some newarpq, log := .enter q.ip t :: s.log }
  | .rxArp sip smac tip op =>
    let (cache, merged) := updateArp s.cache sip smac
    let s := { s with cache }
    if tip ≠ localIp then some (s.goto t .done)
    else if merged then some (s.goto t (answer sip op))
    else some (s.goto t (.addArp sip smac op))
  | .addArp sip smac op => some { s.goto t (answer sip op) with cache := addArp s.cache sip smac }
  | .remove sip => sendRemoveArpq npages s t sip
  | .done => none

def step (npages : ℕ) (s : State) (a : Act) : Option State :=
  if s.panic then none
  else
    match a with
    | .tx t dip =>
      match s.pc t with
      | .idle => some (s.goto t (.lookup dip))
      | _ => none
    | .rx t sip smac tip op =>
      match s.pc t with
      | .idle => some (s.goto t (.rxArp sip smac tip op))
      | _ => none
    | .kalloc t a =>
      match s.pc t with
      | .alloc dip =>
        if a < npages ∧ s.page a = none then
          some { s.goto t (.link a) with page := Function.update s.page a (some ⟨s.arpqs, dip, [t]⟩) }
        else none
      | _ => none
    | .run t => runSection npages s t

def system (npages : ℕ) : System State Act where
  init s := s.arpqs = none ∧ (∀ a, s.page a = none) ∧ (∀ t, s.pc t = .idle) ∧ s.sent = [] ∧ s.log = [] ∧ s.panic = false
  step := step npages

/-! ## The List -/

variable {page page' : ℕ → Option Arpq} {npages : ℕ} {s s' : State} {xs ys zs : List ℕ} {t a : ℕ} {dip : UInt32}
  {p pre : Option ℕ} {q : Arpq}

/-- The link of a queue -/
def link (page : ℕ → Option Arpq) (a : ℕ) : Option ℕ := (page a).bind Arpq.next

/-- The host of a queue, and its packets -/
def entry (page : ℕ → Option Arpq) (a : ℕ) : UInt32 × List ℕ := ((page a).map fun q => (q.ip, q.txq)).getD (0, [])

theorem link_eq (h : page a = some q) : link page a = q.next := by
  unfold link
  rw [h]
  rfl

theorem entry_eq (h : page a = some q) : entry page a = (q.ip, q.txq) := by
  unfold entry
  rw [h]
  rfl

/-- **The loop over the list** ends with the first queue for the address, or finds that there is none. -/
theorem find_spec (dip : UInt32) {fuel : ℕ} (h : Chain (link page) p xs) (hused : ∀ a ∈ xs, ∃ q, page a = some q)
    (hfuel : xs.length ≤ fuel) (pre : Option ℕ) :
    (dip ∉ (xs.map (entry page)).map Prod.fst ∧ State.find page dip fuel pre p = some none) ∨
    ∃ ys a zs, xs = ys ++ a :: zs ∧ (entry page a).1 = dip ∧
      State.find page dip fuel pre p = some (some (ys.getLast?.or pre, a)) := by
  -- induction on the list that is left; `pre` is the queue that the loop came from
  induction xs generalizing p pre fuel with
  | nil =>
    obtain rfl := Seg.nil_iff.mp h
    exact .inl ⟨nofun, by unfold State.find; rfl⟩
  | cons x xs ih =>
    obtain ⟨rfl, hxs⟩ := Seg.cons_iff.mp h
    obtain ⟨fuel, rfl⟩ := Nat.exists_eq_succ_of_ne_zero (Nat.ne_zero_of_lt hfuel)
    obtain ⟨q, hq⟩ := hused x List.mem_cons_self
    have hentry := entry_eq hq
    by_cases hip : q.ip = dip
    · refine .inr ⟨[], x, xs, rfl, by rw [hentry]; exact hip, ?_⟩
      unfold State.find
      rw [hq]
      dsimp only
      rw [if_pos hip]
      rfl
    · have hon : State.find page dip (fuel + 1) pre (some x) = State.find page dip fuel (some x) q.next := by
        rw [State.find, hq]
        dsimp only
        rw [if_neg hip]
      rw [hon]
      rw [link_eq hq] at hxs
      rcases ih hxs (fun a ha => hused a (List.mem_cons_of_mem x ha)) (Nat.le_of_succ_le_succ hfuel) (some x) with
        ⟨hnot, hfind⟩ | ⟨ys, a, zs, rfl, ha, hfind⟩
      · refine .inl ⟨fun hmem => ?_, hfind⟩
        rw [List.map_cons, List.map_cons, hentry] at hmem
        exact (List.mem_cons.mp hmem).elim (fun he => hip he.symm) hnot
      · refine .inr ⟨x :: ys, a, zs, rfl, ha, ?_⟩
        rw [hfind, List.getLast?_cons]
        cases ys.getLast? <;> rfl

theorem queues_spec {fuel : ℕ} (h : Chain (link page) p xs) (hused : ∀ a ∈ xs, ∃ q, page a = some q)
    (hfuel : xs.length ≤ fuel) : State.queues page fuel p = some (xs.map (entry page)) := by
  induction xs generalizing p fuel with
  | nil =>
    obtain rfl := Seg.nil_iff.mp h
    unfold State.queues
    rfl
  | cons x xs ih =>
    obtain ⟨rfl, hxs⟩ := Seg.cons_iff.mp h
    obtain ⟨fuel, rfl⟩ := Nat.exists_eq_succ_of_ne_zero (Nat.ne_zero_of_lt hfuel)
    obtain ⟨q, hq⟩ := hused x List.mem_cons_self
    rw [link_eq hq] at hxs
    unfold State.queues
    rw [hq, Option.bind_some, ih hxs (fun a ha => hused a (List.mem_cons_of_mem x ha)) (Nat.le_of_succ_le_succ hfuel),
      Option.map_some, List.map_cons, entry_eq hq]

/-! ## The Invariant -/

/-- **What the list and the log say is the same**: `xs` are the pages of the list. -/
structure Inv (npages : ℕ) (s : State) (xs : List ℕ) : Prop where
  chain : Chain (link s.page) s.arpqs xs
  used : ∀ a ∈ xs, a < npages ∧ ∃ q, s.page a = some q
  holds : WaitingRoom.Holds (xs.map (entry s.page)) s.log
  /-- A page that is not in the list yet belongs to the call that has got it. -/
  own : ∀ t a, s.pc t = .link a → a < npages ∧ a ∉ xs ∧ ∃ q, s.page a = some q ∧ q.txq = [t]
  apart : ∀ t u a, s.pc t = .link a → s.pc u = .link a → t = u
  items : (WaitingRoom.items s.log).Nodup
  done : ∀ t ∈ WaitingRoom.items s.log, s.pc t = .done
  sent : s.sent = WaitingRoom.left s.log
  calm : s.panic = false

namespace Inv

theorem pages (h : Inv npages s xs) : ∀ a ∈ xs, ∃ q, s.page a = some q := fun a ha => (h.used a ha).2

theorem nodup (h : Inv npages s xs) : xs.Nodup := (h.holds.keys.of_map _).of_map _

theorem length_le (h : Inv npages s xs) : xs.length ≤ npages := by
  have hsub : xs ⊆ List.range npages := fun a ha => List.mem_range.mpr (h.used a ha).1
  simpa using (h.nodup.subperm hsub).length_le

theorem not_mem_items (h : Inv npages s xs) (ht : s.pc t ≠ .done) : t ∉ WaitingRoom.items s.log :=
  fun hmem => ht (h.done t hmem)

/-- A call goes on, and nothing else changes but the cache. -/
theorem goto (h : Inv npages s xs) (ht : s.pc t ≠ .done) (pc : Pc) (hpc : ∀ a, pc ≠ .link a) (cache : Net.State) :
    Inv npages { s.goto t pc with cache } xs := by
  have hlink : ∀ u a, Function.update s.pc t pc u = .link a → s.pc u = .link a := fun u a hu => by
    rcases eq_or_ne u t with rfl | hne
    · rw [Function.update_self] at hu
      exact absurd hu (hpc a)
    · rwa [Function.update_of_ne hne] at hu
  refine ⟨h.chain, h.used, h.holds, fun u a hu => h.own u a (hlink u a hu),
    fun u v a hu hv => h.apart u v a (hlink u a hu) (hlink v a hv), h.items, fun u hu => ?_, h.sent, h.calm⟩
  have hne : u ≠ t := fun he => h.not_mem_items ht (he ▸ hu)
  exact (Function.update_of_ne hne pc s.pc).trans (h.done u hu)

/-- A call is done with its packet. -/
theorem finish (h : Inv npages s xs) {e : Event UInt32 ℕ} {arpqs : Option ℕ} {sent : List ℕ}
    (hitems : WaitingRoom.items (e :: s.log) = t :: WaitingRoom.items s.log ∨
      WaitingRoom.items (e :: s.log) = WaitingRoom.items s.log) (ht : s.pc t ≠ .done)
    (hchain : Chain (link page') arpqs ys) (hused : ∀ a ∈ ys, a < npages ∧ ∃ q, page' a = some q)
    (hholds : WaitingRoom.Holds (ys.map (entry page')) (e :: s.log))
    (hown : ∀ u a, u ≠ t → s.pc u = .link a → a ∉ ys ∧ page' a = s.page a)
    (hsent : sent = WaitingRoom.left (e :: s.log)) :
    Inv npages { s.goto t .done with arpqs, page := page', sent, log := e :: s.log } ys := by
  have hpc : ∀ u a, Function.update s.pc t .done u = .link a → u ≠ t ∧ s.pc u = .link a := fun u a hu => by
    rcases eq_or_ne u t with rfl | hne
    · rw [Function.update_self] at hu
      nomatch hu
    · rw [Function.update_of_ne hne] at hu
      exact ⟨hne, hu⟩
  -- the other calls have kept their pages, and `t` holds none any more
  refine ⟨hchain, hused, hholds, fun u a hu => ?_, fun u v a hu hv => h.apart u v a (hpc u a hu).2 (hpc v a hv).2,
    ?_, fun u hu => ?_, hsent, h.calm⟩
  · obtain ⟨hne, hlink⟩ := hpc u a hu
    obtain ⟨hlt, -, q, hq, htxq⟩ := h.own u a hlink
    obtain ⟨hnot, hpage⟩ := hown u a hne hlink
    exact ⟨hlt, hnot, q, hpage.trans hq, htxq⟩
  · rcases hitems with hitems | hitems
    · exact hitems ▸ List.nodup_cons.mpr ⟨h.not_mem_items ht, h.items⟩
    · exact hitems ▸ h.items
  · rcases eq_or_ne u t with rfl | hne
    · exact Function.update_self _ _ _
    · have hold : u ∈ WaitingRoom.items s.log := by
        rcases hitems with hitems | hitems
        · exact (List.mem_cons.mp (hitems ▸ hu)).resolve_left hne
        · exact hitems ▸ hu
      exact (Function.update_of_ne hne _ s.pc).trans (h.done u hold)

/-! ## Sections -/

/-- A page of the list, with what is before and behind it -/
theorem split (h : Inv npages s (ys ++ a :: zs)) (hq : s.page a = some q) :
    a ∉ ys ∧ a ∉ zs ∧ Chain (link s.page) q.next zs := by
  have hnodup := h.nodup
  rw [List.nodup_middle, List.nodup_cons, List.mem_append, not_or] at hnodup
  obtain ⟨c, -, hc⟩ := Seg.append_iff.mp h.chain
  obtain ⟨-, hzs⟩ := Seg.cons_iff.mp hc
  exact ⟨hnodup.1.1, hnodup.1.2, link_eq hq ▸ hzs⟩

theorem map_entry_of_eq (heq : ∀ b ∈ xs, page' b = page b) : xs.map (entry page') = xs.map (entry page) :=
  List.map_congr_left fun b hb => by
    unfold entry
    rw [heq b hb]

/-- The packet is put into the queue that `add_arpq` has found. -/
theorem push (h : Inv npages s (ys ++ a :: zs)) (ht : s.pc t = .search dip) (hq : s.page a = some q)
    (hip : q.ip = dip) :
    Inv npages { s.goto t .done with
      page := Function.update s.page a ((s.page a).map fun q => { q with txq := q.txq ++ [t] })
      log := .enter dip t :: s.log } (ys ++ a :: zs) := by
  obtain ⟨hays, hazs, -⟩ := h.split hq
  have hne : s.pc t ≠ .done := fun he => nomatch ht.symm.trans he
  rw [hq, Option.map_some]
  set page' := Function.update s.page a (some { q with txq := q.txq ++ [t] }) with hpage'
  have hself : page' a = some { q with txq := q.txq ++ [t] } := Function.update_self _ _ _
  have hother : ∀ b, b ≠ a → page' b = s.page b := fun b hb => Function.update_of_ne hb _ _
  refine h.finish (.inl rfl) hne ?_ (fun b hb => ⟨(h.used b hb).1, ?_⟩) ?_ (fun u b hu hlink => ?_) h.sent
  · refine h.chain.congr fun b _ => ?_
    rcases eq_or_ne b a with rfl | hb
    · rw [link_eq hself, link_eq hq]
    · unfold link
      rw [hother b hb]
  · rcases eq_or_ne b a with rfl | hba
    · exact ⟨_, hself⟩
    · exact hother b hba ▸ h.pages b hb
  · have hholds := h.holds
    rw [List.map_append, List.map_cons, entry_eq hq, hip] at hholds
    rw [List.map_append, List.map_cons, entry_eq hself, hip,
      map_entry_of_eq fun b hb => hother b fun he => hays (he ▸ hb),
      map_entry_of_eq fun b hb => hother b fun he => hazs (he ▸ hb)]
    exact hholds.enter_old
  · obtain ⟨-, hnot, -⟩ := h.own u b hlink
    exact ⟨hnot, hother b fun he => hnot (he ▸ by simp)⟩

/-- A new queue is put in front of the list that its link leads to. -/
theorem insert (h : Inv npages s xs) (ht : s.pc t = .link a) (hq : s.page a = some q) (hnext : q.next = s.arpqs)
    (hnone : q.ip ∉ (xs.map (entry s.page)).map Prod.fst) :
    Inv npages { s.goto t .done with arpqs := some a, log := .enter q.ip t :: s.log } (a :: xs) := by
  have hne : s.pc t ≠ .done := fun he => nomatch ht.symm.trans he
  obtain ⟨hlt, hnot, q', hq', htxq⟩ := h.own t a ht
  obtain rfl := Option.some.inj (hq.symm.trans hq')
  refine h.finish (.inl rfl) hne (h.chain.push ((link_eq hq).trans hnext)) (fun b hb => ?_) ?_
    (fun u b hu hlink => ⟨?_, rfl⟩) h.sent
  · rcases List.mem_cons.mp hb with rfl | hb
    · exact ⟨hlt, q, hq⟩
    · exact h.used b hb
  · have hentry : entry s.page a = (q.ip, [t]) := htxq ▸ entry_eq hq
    exact List.map_cons ▸ hentry.symm ▸ h.holds.enter_new hnone
  · obtain ⟨-, hb, -⟩ := h.own u b hlink
    refine fun hmem => (List.mem_cons.mp hmem).elim (fun he => ?_) hb
    exact hu (h.apart u t a (he ▸ hlink) ht)

/-- A page for a new queue -/
theorem fresh (h : Inv npages s xs) (ht : s.pc t = .alloc dip) (hlt : a < npages) (hfree : s.page a = none) :
    Inv npages { s.goto t (.link a) with page := Function.update s.page a (some ⟨s.arpqs, dip, [t]⟩) } xs := by
  have hne : s.pc t ≠ .done := fun he => nomatch ht.symm.trans he
  have hnot : a ∉ xs := fun ha => by
    obtain ⟨q, hq⟩ := h.pages a ha
    nomatch hfree.symm.trans hq
  set page' := Function.update s.page a (some ⟨s.arpqs, dip, [t]⟩) with hpage'
  have hnew : page' a = some ⟨s.arpqs, dip, [t]⟩ := Function.update_self _ _ _
  have hother : ∀ b, b ≠ a → page' b = s.page b := fun b hb => Function.update_of_ne hb _ _
  have hlist : ∀ b ∈ xs, page' b = s.page b := fun b hb => hother b fun he => hnot (he ▸ hb)
  -- the new page was free, so no list and no other call had it
  have hold : ∀ u b, u ≠ t → Function.update s.pc t (.link a) u = .link b → s.pc u = .link b ∧ b ≠ a := by
    intro u b hu hlink
    rw [Function.update_of_ne hu] at hlink
    refine ⟨hlink, fun he => ?_⟩
    obtain ⟨-, -, q, hq, -⟩ := h.own u b hlink
    rw [he] at hq
    nomatch hfree.symm.trans hq
  have hself : ∀ b, Function.update s.pc t (.link a) t = .link b → b = a := fun b hlink => by
    rw [Function.update_self] at hlink
    exact (Pc.link.inj hlink).symm
  have hchain : Chain (link page') s.arpqs xs := h.chain.congr fun b hb => by
    unfold link
    rw [hlist b hb]
  have hholds : WaitingRoom.Holds (xs.map (entry page')) s.log := by
    rw [map_entry_of_eq hlist]
    exact h.holds
  refine ⟨hchain, fun b hb => ⟨(h.used b hb).1, ?_⟩, hholds, fun u b hlink => ?_, fun u v b hu hv => ?_, h.items,
    fun u hu => ?_, h.sent, h.calm⟩
  · obtain ⟨q, hq⟩ := h.pages b hb
    exact ⟨q, (hlist b hb).trans hq⟩
  · rcases eq_or_ne u t with rfl | hu
    · obtain rfl := hself b hlink
      exact ⟨hlt, hnot, _, hnew, rfl⟩
    · obtain ⟨hlink, hb⟩ := hold u b hu hlink
      obtain ⟨hblt, hbnot, q, hq, htxq⟩ := h.own u b hlink
      exact ⟨hblt, hbnot, q, (hother b hb).trans hq, htxq⟩
  · rcases eq_or_ne u t with rfl | hut
    · rcases eq_or_ne v u with rfl | hvt
      · rfl
      · exact absurd (hself b hu) (hold v b hvt hv).2
    · rcases eq_or_ne v t with rfl | hvt
      · exact absurd (hself b hv) (hold u b hut hu).2
      · exact h.apart u v b (hold u b hut hu).1 (hold v b hvt hv).1
  · have hu' : u ≠ t := fun he => h.not_mem_items hne (he ▸ hu)
    exact (Function.update_of_ne hu' _ s.pc).trans (h.done u hu)

/-- A queue is taken out of the list, and its packets have been handed to the driver. -/
theorem drain {arpqs : Option ℕ} (h : Inv npages s (ys ++ a :: zs)) (ht : s.pc t = .remove dip)
    (hq : s.page a = some q) (hip : q.ip = dip) (hchain : Chain (link page') arpqs (ys ++ zs))
    (hentry : ∀ b, b ≠ a → entry page' b = entry s.page b ∧ ((∃ q, s.page b = some q) → ∃ q, page' b = some q))
    (hprivate : ∀ b, b ∉ ys ++ a :: zs → page' b = s.page b) :
    Inv npages { s.goto t .done with
      sent := s.sent ++ q.txq, arpqs, page := page', log := .call dip :: s.log } (ys ++ zs) := by
  obtain ⟨hays, hazs, -⟩ := h.split hq
  have hne : s.pc t ≠ .done := fun he => nomatch ht.symm.trans he
  have hmem : ∀ b ∈ ys ++ zs, b ∈ ys ++ a :: zs ∧ b ≠ a := fun b hb => by
    rcases List.mem_append.mp hb with hb | hb
    · exact ⟨List.mem_append_left _ hb, fun he => hays (he ▸ hb)⟩
    · exact ⟨List.mem_append_right _ (List.mem_cons_of_mem a hb), fun he => hazs (he ▸ hb)⟩
  have hholds := h.holds
  rw [List.map_append, List.map_cons, entry_eq hq, hip] at hholds
  refine h.finish (.inr rfl) hne hchain (fun b hb => ?_) ?_ (fun u b _ hlink => ?_) ?_
  · obtain ⟨hold, hba⟩ := hmem b hb
    exact ⟨(h.used b hold).1, (hentry b hba).2 (h.pages b hold)⟩
  · have hsame : (ys ++ zs).map (entry page') = (ys ++ zs).map (entry s.page) :=
      List.map_congr_left fun b hb => (hentry b (hmem b hb).2).1
    rw [hsame, List.map_append]
    exact hholds.call
  · obtain ⟨-, hnot, -⟩ := h.own u b hlink
    exact ⟨fun hb => hnot (hmem b hb).1, hprivate b hnot⟩
  · have hwait : q.txq = WaitingRoom.waiting s.log dip := hholds.queue (dip, q.txq) (by simp)
    rw [h.sent, hwait]
    rfl

/-- The first queue is unlinked. -/
theorem unlink_head (h : Inv npages s (a :: zs)) (ht : s.pc t = .remove dip) (hq : s.page a = some q)
    (hip : q.ip = dip) :
    Inv npages { s.goto t .done with
      sent := s.sent ++ q.txq, arpqs := q.next, page := Function.update s.page a none, log := .call dip :: s.log } zs := by
  have hother : ∀ b, b ≠ a → Function.update s.page a none b = s.page b := fun b hb => Function.update_of_ne hb _ _
  have h : Inv npages s ([] ++ a :: zs) := h
  obtain ⟨-, hazs, hzs⟩ := h.split hq
  refine h.drain ht hq hip (hzs.congr fun b hb => ?_) (fun b hb => ?_) fun b hb => ?_
  · unfold link
    rw [hother b fun he => hazs (he ▸ hb)]
  · refine ⟨?_, fun hpage => ?_⟩
    · unfold entry
      rw [hother b hb]
    · rwa [hother b hb]
  · exact hother b fun he => hb (he ▸ List.mem_cons_self)

/-- A queue behind another one is unlinked. -/
theorem unlink_behind {b : ℕ} (h : Inv npages s (ys ++ [b] ++ a :: zs)) (ht : s.pc t = .remove dip)
    (hq : s.page a = some q) (hip : q.ip = dip) :
    Inv npages { s.goto t .done with
      sent := s.sent ++ q.txq, arpqs := s.arpqs
      page := Function.update (Function.update s.page b ((s.page b).map fun p => { p with next := q.next })) a none
      log := .call dip :: s.log } (ys ++ [b] ++ zs) := by
  obtain ⟨hays, hazs, -⟩ := h.split hq
  have hba : b ≠ a := fun he => hays (he ▸ by simp)
  obtain ⟨r, hr⟩ := h.pages b (by simp)
  rw [hr, Option.map_some]
  set page' := Function.update (Function.update s.page b (some { r with next := q.next })) a none with hpage'
  have hb' : page' b = some { r with next := q.next } := by
    rw [hpage', Function.update_of_ne hba, Function.update_self]
  have hother : ∀ c, c ≠ a → c ≠ b → page' c = s.page c := fun c hca hcb => by
    rw [hpage', Function.update_of_ne hca, Function.update_of_ne hcb]
  refine h.drain ht hq hip ?_ (fun c hca => ?_) fun c hc => ?_
  -- the queue before it now leads to the queue behind it
  · have hold : Chain (link s.page) s.arpqs (ys ++ b :: a :: zs) := by simpa using h.chain
    have hnodup : (ys ++ b :: a :: zs).Nodup := by simpa using h.nodup
    have hun := hold.unlink hnodup
    rw [List.append_assoc, List.singleton_append]
    refine hun.congr fun c hc => ?_
    rcases eq_or_ne c b with rfl | hcb
    · rw [Function.update_self, link_eq hb', link_eq hq]
    · have hca : c ≠ a := fun he => by
        subst he
        rcases List.mem_append.mp hc with hc | hc
        · exact hays (List.mem_append_left _ hc)
        · exact (List.mem_cons.mp hc).elim hcb hazs
      rw [Function.update_of_ne hcb]
      unfold link
      rw [hother c hca hcb]
  · rcases eq_or_ne c b with rfl | hcb
    · exact ⟨(entry_eq hb').trans (entry_eq hr).symm, fun _ => ⟨_, hb'⟩⟩
    · refine ⟨?_, fun hpage => ?_⟩
      · unfold entry
        rw [hother c hca hcb]
      · rwa [hother c hca hcb]
  · exact hother c (fun he => hc (he ▸ by simp)) fun he => hc (he ▸ by simp)

end Inv

/-! ## Runs -/

/-- **What is asked of a section**: when `add_arpq` puts a queue in front of the list, the list begins where the
    queue's link leads, and has no queue for the address; when a reply is processed, the cache has the address, if
    packets wait for it. -/
def MeetsPc (npages : ℕ) (s : State) : Pc → Prop
  | .link a => ∀ q, s.page a = some q →
    q.next = s.arpqs ∧ State.find s.page q.ip npages none s.arpqs = some none
  | .remove sip => State.find s.page sip npages none s.arpqs ≠ some none → arpLookup s.cache sip ≠ none
  | _ => True

def Meets (npages : ℕ) (s : State) : Act → Prop
  | .run t => MeetsPc npages s (s.pc t)
  | _ => True

namespace Inv

theorem remove_step (h : Inv npages s xs) (ht : s.pc t = .remove dip) (hmeets : MeetsPc npages s (.remove dip))
    (hs : sendRemoveArpq npages s t dip = some s') : ∃ xs', Inv npages s' xs' := by
  have hne : s.pc t ≠ .done := fun he => nomatch ht.symm.trans he
  unfold sendRemoveArpq at hs
  rcases find_spec dip h.chain h.pages h.length_le none with ⟨hnot, hfind⟩ | ⟨ys, a, zs, rfl, ha, hfind⟩
  · rw [hfind] at hs
    obtain rfl := Option.some.inj hs
    obtain ⟨hholds, hleft⟩ := h.holds.call_none hnot
    exact ⟨xs, h.finish (.inr rfl) hne h.chain h.used hholds
      (fun u b _ hlink => ⟨(h.own u b hlink).2.1, rfl⟩) (h.sent.trans hleft.symm)⟩
  · obtain ⟨q, hq⟩ := h.pages a (by simp)
    rw [entry_eq hq] at ha
    have hknown : arpLookup s.cache dip ≠ none := hmeets (by rw [hfind]; nofun)
    rw [hfind] at hs
    dsimp only at hs
    rw [hq] at hs
    dsimp only at hs
    rw [if_neg fun hpanic => hknown hpanic.2] at hs
    -- the queue is the first one, or there is one before it
    rcases List.eq_nil_or_concat ys with rfl | ⟨ys, b, rfl⟩
    · obtain rfl := Option.some.inj hs
      exact ⟨zs, h.unlink_head ht hq ha⟩
    · rw [List.concat_eq_append] at h hs
      rw [List.getLast?_append_of_ne_nil _ (List.cons_ne_nil b [])] at hs
      obtain rfl := Option.some.inj hs
      exact ⟨ys ++ [b] ++ zs, h.unlink_behind ht hq ha⟩

theorem run_step (h : Inv npages s xs) (hmeets : MeetsPc npages s (s.pc t)) (hs : runSection npages s t = some s') :
    ∃ xs', Inv npages s' xs' := by
  unfold runSection at hs
  cases hpc : s.pc t with
  | idle =>
    rw [hpc] at hs
    nomatch hs
  | alloc dip =>
    rw [hpc] at hs
    nomatch hs
  | done =>
    rw [hpc] at hs
    nomatch hs
  | lookup dip =>
    have hne : s.pc t ≠ .done := fun he => nomatch hpc.symm.trans he
    rw [hpc] at hs
    dsimp only at hs
    -- a call that finds the address sends its packet at once, without the list
    by_cases hmiss : arpLookup s.cache dip = none
    · rw [if_pos hmiss] at hs
      obtain rfl := Option.some.inj hs
      exact ⟨xs, h.goto hne (.search dip) (fun _ he => nomatch he) s.cache⟩
    · rw [if_neg hmiss] at hs
      obtain rfl := Option.some.inj hs
      exact ⟨xs, h.finish (.inl rfl) hne h.chain h.used h.holds.pass
        (fun u b _ hlink => ⟨(h.own u b hlink).2.1, rfl⟩) (congrArg (· ++ [t]) h.sent)⟩
  | search dip =>
    have hne : s.pc t ≠ .done := fun he => nomatch hpc.symm.trans he
    rw [hpc] at hs
    dsimp only at hs
    rcases find_spec dip h.chain h.pages h.length_le none with ⟨-, hfind⟩ | ⟨ys, a, zs, rfl, ha, hfind⟩
    · rw [hfind] at hs
      obtain rfl := Option.some.inj hs
      exact ⟨xs, h.goto hne (.alloc dip) (fun _ he => nomatch he) s.cache⟩
    · obtain ⟨q, hq⟩ := h.pages a (by simp)
      rw [entry_eq hq] at ha
      rw [hfind] at hs
      obtain rfl := Option.some.inj hs
      exact ⟨_, h.push hpc hq ha⟩
  | link a =>
    obtain ⟨-, -, q, hq, -⟩ := h.own t a hpc
    rw [hpc] at hs hmeets
    dsimp only at hs
    rw [hq] at hs
    obtain rfl := Option.some.inj hs
    -- the call came back from `kalloc`: the condition says that nobody has made a queue for the
    -- address
    obtain ⟨hnext, hfind⟩ := hmeets q hq
    refine ⟨a :: xs, h.insert hpc hq hnext ?_⟩
    rcases find_spec q.ip h.chain h.pages h.length_le none with ⟨hnot, -⟩ | ⟨ys, b, zs, -, -, hfound⟩
    · exact hnot
    · nomatch hfind.symm.trans hfound
  | rxArp sip smac tip op =>
    have hne : s.pc t ≠ .done := fun he => nomatch hpc.symm.trans he
    have hanswer : ∀ a, answer sip op ≠ .link a := fun a => by
      unfold answer
      split <;> nofun
    rw [hpc] at hs
    dsimp only at hs
    generalize updateArp s.cache sip smac = r at hs
    -- a packet for another host changes the cache at most
    by_cases htip : tip ≠ localIp
    · rw [if_pos htip] at hs
      obtain rfl := Option.some.inj hs
      exact ⟨xs, h.goto hne .done (fun _ he => nomatch he) r.1⟩
    · rw [if_neg htip] at hs
      by_cases hmerged : r.2 = true
      · rw [if_pos hmerged] at hs
        obtain rfl := Option.some.inj hs
        exact ⟨xs, h.goto hne _ hanswer r.1⟩
      · rw [if_neg hmerged] at hs
        obtain rfl := Option.some.inj hs
        exact ⟨xs, h.goto hne (.addArp sip smac op) (fun _ he => nomatch he) r.1⟩
  | addArp sip smac op =>
    have hne : s.pc t ≠ .done := fun he => nomatch hpc.symm.trans he
    have hanswer : ∀ a, answer sip op ≠ .link a := fun a => by
      unfold answer
      split <;> nofun
    rw [hpc] at hs
    obtain rfl := Option.some.inj hs
    exact ⟨xs, h.goto hne _ hanswer (Net.addArp s.cache sip smac)⟩
  | remove sip =>
    rw [hpc] at hs hmeets
    exact h.remove_step hpc hmeets hs

/-- **One step** that meets the condition keeps the invariant. -/
theorem step {act : Act} (h : Inv npages s xs) (hmeets : Meets npages s act)
    (hs : ArpPending.step npages s act = some s') : ∃ xs', Inv npages s' xs' := by
  unfold ArpPending.step at hs
  rw [h.calm, if_neg Bool.false_ne_true] at hs
  -- A call begins only on an idle CPU, and a page comes only to a CPU that waits for one.
  cases act with
  | tx t dip =>
    dsimp only at hs
    cases hpc : s.pc t with
    | idle =>
      rw [hpc] at hs
      obtain rfl := Option.some.inj hs
      exact ⟨xs, h.goto (fun he => nomatch hpc.symm.trans he) (.lookup dip) (fun _ he => nomatch he) s.cache⟩
    | _ =>
      rw [hpc] at hs
      nomatch hs
  | rx t sip smac tip op =>
    dsimp only at hs
    cases hpc : s.pc t with
    | idle =>
      rw [hpc] at hs
      obtain rfl := Option.some.inj hs
      exact ⟨xs, h.goto (fun he => nomatch hpc.symm.trans he) (.rxArp sip smac tip op) (fun _ he => nomatch he) s.cache⟩
    | _ =>
      rw [hpc] at hs
      nomatch hs
  | kalloc t a =>
    dsimp only at hs
    cases hpc : s.pc t with
    | alloc dip =>
      rw [hpc] at hs
      dsimp only at hs
      by_cases hfree : a < npages ∧ s.page a = none
      · rw [if_pos hfree] at hs
        obtain rfl := Option.some.inj hs
        exact ⟨xs, h.fresh hpc hfree.1 hfree.2⟩
      · rw [if_neg hfree] at hs
        nomatch hs
    | _ =>
      rw [hpc] at hs
      nomatch hs
  | run t => exact h.run_step hmeets hs

end Inv

theorem reachable_inv (h : (system npages).ReachableUnder (Meets npages) s) : ∃ xs, Inv npages s xs :=
  System.invariant (fun s => ∃ xs, Inv npages s xs)
    (fun s (hi : s.arpqs = none ∧ (∀ a, s.page a = none) ∧ (∀ t, s.pc t = .idle) ∧ s.sent = [] ∧ s.log = [] ∧
        s.panic = false) => by
      obtain ⟨harpqs, -, hpc, hsent, hlog, hpanic⟩ := hi
      have hlink : ∀ t a, s.pc t ≠ .link a := fun t a ht => nomatch (hpc t).symm.trans ht
      refine ⟨[], harpqs ▸ .nil none, nofun, hlog ▸ .nil, fun t a ht => absurd ht (hlink t a),
        fun t _ a ht => absurd ht (hlink t a), ?_, ?_, ?_, hpanic⟩ <;> rw [hlog]
      · exact .nil
      · nofun
      · exact hsent)
    (fun _ _ _ hi hm hs => hi.elim fun _ hi => hi.step hm hs) h

/-- **No packet is lost or sent twice**, between two calls: the list has at most one queue for an address; a packet
    for which no reply has been processed since it was added is in one queue, that of its address, and has not been
    sent; a packet for which one has is in no queue, and has been sent once. -/
structure Right (npages : ℕ) (s : State) : Prop where
  calm : s.panic = false
  queues : ∃ es, State.queues s.page npages s.arpqs = some es ∧ (es.map Prod.fst).Nodup ∧
    (∀ t dip, WaitingRoom.Waits s.log dip t →
      (∃ txq, (dip, txq) ∈ es ∧ t ∈ txq) ∧ (es.flatMap Prod.snd).count t = 1 ∧ t ∉ s.sent) ∧
    ∀ t dip, WaitingRoom.Answered s.log dip t → (es.flatMap Prod.snd).count t = 0 ∧ s.sent.count t = 1

/-- **Packets that wait for ARP are neither lost nor duplicated** in every run whose steps meet the condition. -/
theorem arp_pending (npages : ℕ) (s : State) :
    (system npages).ReachableUnder (Meets npages) s → Right npages s := by
  intro h
  obtain ⟨xs, hinv⟩ := reachable_inv h
  refine ⟨hinv.calm, xs.map (entry s.page), queues_spec hinv.chain hinv.pages hinv.length_le, hinv.holds.keys,
    fun t dip hw => ?_, fun t dip ha => ?_⟩
  · rw [hinv.sent]
    exact hinv.holds.waits hinv.items hw
  · rw [hinv.sent]
    exact hinv.holds.answered hinv.items ha

/-! ## Two Hosts -/

instance (npages : ℕ) (s : State) (pc : Pc) : Decidable (MeetsPc npages s pc) :=
  match pc with
  | .link a => inferInstanceAs (Decidable (∀ q ∈ s.page a,
      q.next = s.arpqs ∧ State.find s.page q.ip npages none s.arpqs = some none))
  | .remove sip =>
    inferInstanceAs (Decidable (State.find s.page sip npages none s.arpqs ≠ some none → arpLookup s.cache sip ≠ none))
  | .idle | .lookup _ | .search _ | .alloc _ | .rxArp .. | .addArp .. | .done => .isTrue trivial

instance (npages : ℕ) (s : State) (act : Act) : Decidable (Meets npages s act) :=
  match act with
  | .run t => inferInstanceAs (Decidable (MeetsPc npages s (s.pc t)))
  | .tx .. | .rx .. | .kalloc .. => .isTrue trivial

/-- No addresses are known, and no packets wait. -/
def empty : State where
  cache :=
    { sockets := fun _ => []
      sock := fun _ => ⟨0, 0, 0, false, ⟨.closed, 0, 0, ⟨0, 0⟩, ⟨0, 0⟩⟩, []⟩
      arpCache := fun _ => ⟨0, []⟩
      freeArpIdx := 0
      freed := []
      tx := []
      wakeups := [] }
  arpqs := none
  page := fun _ => none
  pc := fun _ => .idle
  sent := []
  log := []
  panic := false

theorem empty_init (npages : ℕ) : (system npages).init empty := ⟨rfl, fun _ => rfl, fun _ => rfl, rfl, rfl, rfl⟩

/-- Two packets wait for one host, and a reply comes. -/
theorem arp_pending_two : ∃ s, s.sent = [0, 1] ∧ Right 4 s := by
  have hrun : ((system 4).runUnder (fun s a => decide (Meets 4 s a)) empty
      [.tx 0 7, .run 0, .run 0, .kalloc 0 2, .run 0, .tx 1 7, .run 1, .run 1,
        .rx 2 7 [0, 0, 0, 0, 0, 1] localIp ARP_OP_REPLY, .run 2, .run 2, .run 2]).any
        (fun s => decide (s.sent = [0, 1])) = true := by
    decide +kernel
  obtain ⟨s, hs, hsent⟩ := System.exists_reachableUnder_of_runUnder (G := Meets 4)
    (fun s a h => of_decide_eq_true h) (empty_init 4) hrun
  exact ⟨s, of_decide_eq_true hsent, arp_pending 4 s hs⟩

/-- **A packet is lost**: the calls 0 and 1 both read that the list is empty, and the queue of the call 1 is overwritten
    by that of the call 0. -/
theorem packet_lost : ∃ s, (system 4).Reachable s ∧ ¬ Right 4 s := by
  have hrun : ((system 4).run empty
      [.tx 0 7, .run 0, .run 0, .kalloc 0 2, .tx 1 8, .run 1, .run 1, .kalloc 1 3, .run 1, .run 0]).any
        (fun s => decide (State.queues s.page 4 s.arpqs = some [(7, [0])] ∧ s.log = [.enter 7 0, .enter 8 1])) =
      true := by
    decide +kernel
  obtain ⟨s, hs, hstate⟩ := System.exists_reachable_of_run (empty_init 4) hrun
  obtain ⟨hqueues, hlog⟩ := of_decide_eq_true hstate
  refine ⟨s, hs, fun hright => ?_⟩
  obtain ⟨es, hes, -, hwaits, -⟩ := hright.queues
  obtain rfl := Option.some.inj (hqueues.symm.trans hes)
  have hone := (hwaits 1 8 ⟨[.enter 7 0], [], hlog, by decide⟩).2.1
  exact absurd hone (by decide)

end Xv6.Kernel.ArpPending
