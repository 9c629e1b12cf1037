import Mathlib
import Xv6.Lib.TransitionSystem
import Xv6.Lib.LinkedList
import Xv6.Lib.Placement
import Xv6.Kernel.FreeLists

/-!
# Pages Are Neither Lost Nor Handed Out Twice

Every managed page is in one place: on the free list of one CPU, with one call in
progress, or with the callers of the allocator. The invariant gives each place
its list of pages; every step of the allocator moves pages between two places.

The rest of a stolen list overwrites the own list in a later section than the
one that found it empty. In between, the CPU runs nothing else and other CPUs
only take pages from a list, so it is still empty.

- `kstealLoop_spec`, `ksteal_spec`: the loop ends, and cuts the list in two;
- `kalloc_partition`: the places partition the managed pages, `kalloc` returns a
  page nobody holds, and fails alone only when all free lists are empty.
-/

namespace Xv6.Kernel.FreeLists

open Xv6.Lib

/-! ## Splitting a list -/

/-- `slow` stays on the list: with the cells `ys` between it and `fast`, and `zs`
    from `fast` on, the loop ends at `slow` or at one of them. -/
theorem kstealLoop_spec {next : ℕ → Option ℕ} {fuel slow : ℕ} {fast : Option ℕ} {ys zs : List ℕ}
    (hys : Seg next (next slow) ys fast) (hzs : Chain next fast zs) (hfuel : zs.length < 2 * fuel) :
    ∃ slow', kstealLoop next fuel slow fast = some slow' ∧ slow' ∈ slow :: (ys ++ zs) := by
  induction fuel generalizing slow fast ys zs with
  | zero => omega
  | succ fuel ih =>
    rcases fast with _ | f
    · exact ⟨slow, rfl, List.mem_cons_self⟩
    obtain ⟨zs, rfl, hf⟩ := hzs.eq_cons
    rcases hg : next f with _ | g
    · exact ⟨slow, by simp [kstealLoop, hg], List.mem_cons_self⟩
    rw [hg] at hf
    obtain ⟨zs, rfl, hg'⟩ := hf.eq_cons
    -- two cells pass from behind `fast` to before it, so there is a cell behind `slow`
    have hys' : Seg next (next slow) (ys ++ [f, g]) (next g) :=
      hys.append (.cons (hg ▸ .cons (.nil _)))
    obtain ⟨x, xs, hx⟩ : ∃ x xs, ys ++ [f, g] = x :: xs :=
      List.exists_cons_of_ne_nil (by simp)
    rw [hx, Seg.cons_iff] at hys'
    obtain ⟨slow', hloop, hmem⟩ := ih hys'.2 hg' (by simp at hfuel; omega)
    refine ⟨slow', by simp [kstealLoop, hg, hys'.1, hloop], ?_⟩
    have hlist : ys ++ f :: g :: zs = x :: (xs ++ zs) := by
      rw [← List.cons_append, ← hx]
      simp
    rw [hlist]
    exact List.mem_cons_of_mem _ hmem

/-- `ksteal` cuts a list behind one of its cells. -/
theorem ksteal_spec {k : Kmems} {fuel head : ℕ} {xs : List ℕ} (hxs : Chain k.next (some head) xs)
    (hnd : xs.Nodup) (hfuel : xs.length ≤ fuel) :
    ∃ slow first rest, xs = first ++ slow :: rest ∧
      k.ksteal fuel head = some (k.setNext slow none, k.next slow) ∧
      Chain (k.setNext slow none).next (some head) (first ++ [slow]) ∧
      Chain (k.setNext slow none).next (k.next slow) rest := by
  obtain ⟨ys, rfl, hys⟩ := hxs.eq_cons
  obtain ⟨slow, hloop, hmem⟩ :=
    kstealLoop_spec (.nil (k.next head)) hys (show ys.length < 2 * fuel by simp at hfuel; omega)
  obtain ⟨first, rest, hsplit⟩ := List.append_of_mem hmem
  rw [List.nil_append] at hsplit
  obtain ⟨hfirst, hrest⟩ := Chain.cut (hsplit ▸ hxs) (hsplit ▸ hnd)
  exact ⟨slow, first, rest, hsplit, by simp [Kmems.ksteal, hloop], hfirst, hrest⟩

/-! ## Where the pages are -/

/-- The places a page can be at. -/
inductive Place (τ : Type*) where
  /-- on the free list of the CPU -/
  | list (i : Fin NCPU)
  /-- with a call in progress -/
  | call (p : τ)
  /-- in the hands of callers -/
  | callers
  deriving DecidableEq

/-- The pages a call in progress has. -/
def CallHolds (next : ℕ → Option ℕ) : Pc → List ℕ → Prop
  | .install _ r, xs => Chain next (some r) xs
  | .found r, xs => xs = [r]
  | .freeing q, xs => xs = [q]
  | _, xs => xs = []

/-- The CPU a call runs on between `push_off` and `pop_off`. -/
def Pc.cpu : Pc → Option (Fin NCPU)
  | steal i _ | install i _ => some i
  | _ => none

variable {τ : Type*}

/-- The page is at the place. -/
def State.At (s : State τ) : Place τ → ℕ → Prop
  | .list i, q => ∃ xs, Chain s.mem.next (s.mem.freelist i) xs ∧ q ∈ xs
  | .call p, q => ∃ xs, CallHolds s.mem.next (s.pc p) xs ∧ q ∈ xs
  | .callers, q => s.held q ≠ 0

theorem CallHolds.update {next : ℕ → Option ℕ} {pc : Pc} {xs : List ℕ} (h : CallHolds next pc xs)
    {q : ℕ} (hq : q ∉ xs) (v : Option ℕ) : CallHolds (Function.update next q v) pc xs := by
  cases pc with
  | install i r => exact Seg.update h hq v
  | _ => exact h

theorem CallHolds.unique {next : ℕ → Option ℕ} {pc : Pc} {xs ys : List ℕ} (hx : CallHolds next pc xs)
    (hy : CallHolds next pc ys) : xs = ys := by
  cases pc with
  | install i r => exact Chain.unique hx hy
  | _ => exact hx.trans hy.symm

/-! ## The invariant -/

/-- The CPU a call runs on is its own, and its free list is empty. -/
structure CpuInv (s : State τ) : Prop where
  off : ∀ p i, (s.pc p).cpu = some i → s.off i = true
  empty : ∀ p i, (s.pc p).cpu = some i → s.mem.freelist i = none
  one : ∀ p p' i, (s.pc p).cpu = some i → (s.pc p').cpu = some i → p = p'

/-- `L` lists the pages at each place. -/
structure Inv (kend : ℕ) (s : State τ) (L : Place τ → List ℕ) : Prop extends CpuInv s where
  splits : Splits L {q | q ∈ pages kend}
  list : ∀ i, Chain s.mem.next (s.mem.freelist i) (L (.list i))
  call : ∀ p, CallHolds s.mem.next (s.pc p) (L (.call p))
  callers : ∀ q, q ∈ L .callers ↔ s.mem.refCnt q ≠ 0
  held : ∀ q, s.held q = s.mem.refCnt q
  panic : ∀ msg, s.panic = some msg → msg = "kfree" ∨ msg = "kfree ref_cnt"

variable {kend : ℕ} {s s' : State τ} {L : Place τ → List ℕ}

/-- A list of managed pages is no longer than all of them. -/
theorem Inv.length_le (h : Inv kend s L) (pl : Place τ) : (L pl).length ≤ (pages kend).length :=
  (List.subperm_of_subset (h.splits.nodup pl) fun _ hq => h.splits.mem hq).length_le

/-! ## The CPUs -/

variable [DecidableEq τ] {p : τ} {i : Fin NCPU}

namespace CpuInv

/-- A caller that stays on its CPU, or leaves it, takes no CPU from anybody. -/
theorem setPc (h : CpuInv s) {pc : Pc} (hpc : pc.cpu = none ∨ pc.cpu = (s.pc p).cpu) :
    CpuInv (s.setPc p pc) := by
  have hcpu : ∀ q i, ((s.setPc p pc).pc q).cpu = some i → (s.pc q).cpu = some i := by
    intro q i hq
    simp only [State.setPc] at hq
    by_cases hqp : q = p
    · subst hqp
      rw [Function.update_self] at hq
      rcases hpc with hnone | hsame
      · rw [hnone] at hq; cases hq
      · exact hsame ▸ hq
    · rwa [Function.update_of_ne hqp] at hq
  exact ⟨fun q i hq => h.off q i (hcpu q i hq), fun q i hq => h.empty q i (hcpu q i hq),
    fun q q' i hq hq' => h.one q q' i (hcpu q i hq) (hcpu q' i hq')⟩

omit [DecidableEq τ] in
/-- Only the free lists of CPUs without a call change. -/
theorem setMem (h : CpuInv s) {mem : Kmems}
    (hmem : ∀ p i, (s.pc p).cpu = some i → mem.freelist i = s.mem.freelist i) :
    CpuInv { s with mem := mem } where
  off := h.off
  empty p i hp := (hmem p i hp).trans (h.empty p i hp)
  one := h.one

/-- A call ends its stay on a CPU. -/
theorem leave (h : CpuInv s) (hp : (s.pc p).cpu = some i) {pc : Pc} (hpc : pc.cpu = none) :
    CpuInv ((s.setOff i false).setPc p pc) := by
  have hcpu : ∀ q j, (Function.update s.pc p pc q).cpu = some j →
      (s.pc q).cpu = some j ∧ j ≠ i := by
    intro q j hq
    by_cases hqp : q = p
    · subst hqp
      rw [Function.update_self, hpc] at hq
      cases hq
    · rw [Function.update_of_ne hqp] at hq
      exact ⟨hq, fun hji => hqp (h.one q p i (hji ▸ hq) hp)⟩
  refine ⟨fun q j hq => ?_, fun q j hq => h.empty q j (hcpu q j hq).1,
    fun q q' j hq hq' => h.one q q' j (hcpu q j hq).1 (hcpu q' j hq').1⟩
  obtain ⟨hold, hji⟩ := hcpu q j hq
  exact (Function.update_of_ne hji _ _).trans (h.off q j hold)

/-- A call enters a CPU that runs no other call and whose free list is empty. -/
theorem enter (h : CpuInv s) (hoff : s.off i = false) (hempty : s.mem.freelist i = none) {pc : Pc}
    (hpc : pc.cpu = some i) : CpuInv ((s.setOff i true).setPc p pc) := by
  have hcpu : ∀ q j, (Function.update s.pc p pc q).cpu = some j →
      (q = p ∧ j = i) ∨ (q ≠ p ∧ j ≠ i ∧ (s.pc q).cpu = some j) := by
    intro q j hq
    by_cases hqp : q = p
    · subst hqp
      rw [Function.update_self, hpc] at hq
      exact .inl ⟨rfl, (Option.some.inj hq).symm⟩
    · rw [Function.update_of_ne hqp] at hq
      refine .inr ⟨hqp, fun hji => ?_, hq⟩
      have := h.off q j hq
      simp [hji, hoff] at this
  refine ⟨fun q j hq => ?_, fun q j hq => ?_, fun q q' j hq hq' => ?_⟩
  · rcases hcpu q j hq with ⟨-, rfl⟩ | ⟨-, hji, hold⟩
    · exact Function.update_self ..
    · exact (Function.update_of_ne hji _ _).trans (h.off q j hold)
  · rcases hcpu q j hq with ⟨-, rfl⟩ | ⟨-, -, hold⟩
    · exact hempty
    · exact h.empty q j hold
  · rcases hcpu q j hq with ⟨rfl, rfl⟩ | ⟨-, hji, hold⟩ <;>
      rcases hcpu q' j hq' with ⟨rfl, hji'⟩ | ⟨-, hji', hold'⟩
    · rfl
    · exact absurd rfl hji'
    · exact absurd hji' hji
    · exact h.one q q' j hold hold'

omit [DecidableEq τ] in
/-- A CPU with a nonempty free list runs no call. -/
theorem not_cpu_of_some (h : CpuInv s) {r : ℕ} (hr : s.mem.freelist i = some r) (q : τ) :
    (s.pc q).cpu ≠ some i := fun hq => by
  rw [h.empty q i hq] at hr
  cases hr

omit [DecidableEq τ] in
theorem not_cpu_of_off (h : CpuInv s) (hoff : s.off i = false) (q : τ) :
    (s.pc q).cpu ≠ some i := fun hq => by
  rw [h.off q i hq] at hoff
  cases hoff

end CpuInv

/-! ## Moving pages -/

namespace Inv

/-- A call in progress exchanges pages with another place; it writes to the first
    word of one of these pages at most. -/
theorem exchange (hi : Inv kend s L) (a : Place τ) (xs ys : List ℕ) (q : ℕ) (v : Option ℕ)
    {pc : Pc} (ha : ∀ p', a ≠ .call p') (hperm : (xs ++ ys).Perm (L a ++ L (.call p)))
    (hq : q ∈ L a ++ L (.call p)) (hcpu : CpuInv s') (hpc : s'.pc = Function.update s.pc p pc)
    (hnext : s'.mem.next = Function.update s.mem.next q v)
    (hfree : ∀ i, a ≠ .list i → s'.mem.freelist i = s.mem.freelist i)
    (hlist : ∀ i, a = .list i → Chain s'.mem.next (s'.mem.freelist i) xs)
    (hcall : CallHolds s'.mem.next pc ys)
    (hrefs : ∀ x, x ∈ Function.update L a xs .callers ↔ s'.mem.refCnt x ≠ 0)
    (hheld : ∀ x, s'.held x = s'.mem.refCnt x) (hpanic : s'.panic = s.panic) :
    Inv kend s' (Function.update (Function.update L a xs) (.call p) ys) := by
  -- the page written to is at none of the other places
  have hout : ∀ pl, pl ≠ a → pl ≠ .call p → q ∉ L pl := by
    intro pl hpa hpp hqpl
    rcases List.mem_append.mp hq with h | h
    · exact hpa (hi.splits.place_unique hqpl h)
    · exact hpp (hi.splits.place_unique hqpl h)
  refine ⟨hcpu, hi.splits.move (ha p) hperm, fun i => ?_, fun p' => ?_, fun x => ?_, hheld, ?_⟩
  · rw [Function.update_of_ne (by simp)]
    by_cases hai : a = .list i
    · subst hai
      rw [Function.update_self]
      exact hlist i rfl
    · rw [Function.update_of_ne (Ne.symm hai), hnext, hfree i hai]
      exact Seg.update (hi.list i) (hout _ (Ne.symm hai) (by simp)) v
  · by_cases hp : p' = p
    · subst hp
      rw [Function.update_self, hpc, Function.update_self]
      exact hcall
    · have hne : Place.call p' ≠ .call p := by simpa using hp
      rw [Function.update_of_ne hne, hpc, Function.update_of_ne hp]
      rw [Function.update_of_ne (ha p').symm, hnext]
      exact (hi.call p').update (hout _ (ha p').symm hne) v
  · rw [Function.update_of_ne (by simp)]
    exact hrefs x
  · rw [hpanic]
    exact hi.panic

omit [DecidableEq τ] in
/-- A caller outside of the allocator's sections has no page in progress. -/
theorem call_nil (hi : Inv kend s L) (hpc : s.pc p = .idle) : L (.call p) = [] := by
  have := hi.call p
  rwa [hpc] at this

/-- No page moves: the caller goes on with the pages it has. -/
theorem keep (hi : Inv kend s L) {pc : Pc} (hcpu : CpuInv s')
    (hpc : s'.pc = Function.update s.pc p pc) (hmem : s'.mem = s.mem) (hheld : s'.held = s.held)
    (hcall : CallHolds s.mem.next pc (L (.call p))) (hpanic : s'.panic = s.panic) :
    Inv kend s' L where
  toCpuInv := hcpu
  splits := hi.splits
  list := hmem ▸ hi.list
  call p' := by
    rw [hmem, hpc]
    by_cases hp : p' = p
    · subst hp
      rw [Function.update_self]
      exact hcall
    · rw [Function.update_of_ne hp]
      exact hi.call p'
  callers := hmem ▸ hi.callers
  held := by rw [hheld, hmem]; exact hi.held
  panic := hpanic ▸ hi.panic

omit [DecidableEq τ] in
theorem stop (hi : Inv kend s L) {msg : String} (hmsg : msg = "kfree" ∨ msg = "kfree ref_cnt") :
    Inv kend { s with panic := some msg } L :=
  { hi with
    panic := fun _ h => Option.some.inj h ▸ hmsg }

/-! ### `kalloc` -/

/-- `kalloc` takes the first page of its own list. -/
theorem kallocOwn (hi : Inv kend s L) (hpc : s.pc p = .idle) {r : ℕ}
    (hr : s.mem.freelist i = some r) :
    ∃ L', Inv kend ({ s with mem := s.mem.setFreelist i (s.mem.next r) }.setPc p (.found r)) L' := by
  obtain ⟨xs, hL, hxs⟩ := Chain.eq_cons (hr ▸ hi.list i)
  have hcpu : CpuInv { s with mem := s.mem.setFreelist i (s.mem.next r) } :=
    hi.setMem fun q j hq => Function.update_of_ne
      (fun (hji : j = i) => hi.not_cpu_of_some hr q (hji ▸ hq)) _ _
  refine ⟨_, hi.exchange (p := p) (.list i) xs [r] r
    (s.mem.next r) (by simp) ?_ (by simp [hL]) (hcpu.setPc (.inl rfl)) rfl
    (Function.update_eq_self ..).symm ?_ ?_ rfl ?_ hi.held rfl⟩
  · rw [hL, hi.call_nil hpc, List.append_nil]
    exact List.perm_append_singleton r xs
  · intro j hj
    exact Function.update_of_ne (fun hji => hj (by rw [hji])) _ _
  · rintro j ⟨⟩
    simpa [State.setPc, Kmems.setFreelist] using hxs
  · intro x
    rw [Function.update_of_ne (by simp)]
    exact hi.callers x

/-- `kalloc` cuts off the first part of another CPU's list. -/
theorem kallocSteal (hi : Inv kend s L) {j : Fin NCPU} {n : ℕ} (hpc : s.pc p = .steal i n) {r : ℕ}
    (hr : s.mem.freelist j = some r) :
    ∃ mem, s.mem.kallocSteal (pages kend).length j = some (some r, mem) ∧
      ∃ L', Inv kend ({ s with mem := mem }.setPc p (.install i r)) L' := by
  obtain ⟨slow, first, rest, hL, hsteal, hfirst, hrest⟩ :=
    ksteal_spec (hr ▸ hi.list j) (hi.splits.nodup _) (hi.length_le _)
  refine ⟨(s.mem.setNext slow none).setFreelist j (s.mem.next slow),
    by simp [Kmems.kallocSteal, hr, hsteal], ?_⟩
  have hcall : L (.call p) = [] := by
    have := hi.call p
    rwa [hpc] at this
  have hcpu : CpuInv { s with mem := (s.mem.setNext slow none).setFreelist j (s.mem.next slow) } :=
    hi.setMem fun q i hq => Function.update_of_ne
      (fun (hij : i = j) => hi.not_cpu_of_some hr q (hij ▸ hq)) _ _
  refine ⟨_, hi.exchange (p := p) (.list j) rest (first ++ [slow]) slow
    none (by simp) ?_ (by simp [hL]) (hcpu.setPc (.inr (by rw [hpc]; rfl))) rfl rfl
    ?_ ?_ hfirst ?_ hi.held rfl⟩
  · rw [hL, hcall, List.append_nil]
    exact List.perm_append_comm.trans (by simp)
  · intro i' hi'
    exact Function.update_of_ne (fun hij => hi' (by rw [hij])) _ _
  · rintro i' ⟨⟩
    simpa [State.setPc, Kmems.setFreelist] using hrest
  · intro x
    rw [Function.update_of_ne (by simp)]
    exact hi.callers x

/-- `kalloc` keeps the first page it stole; the rest becomes its own list, which is
    still as empty as it found it. -/
theorem kallocInstall (hi : Inv kend s L) {r : ℕ} (hpc : s.pc p = .install i r) :
    ∃ L', Inv kend
      (({ s with mem := s.mem.kallocInstall i r }.setOff i false).setPc p (.found r)) L' := by
  have hrun : (s.pc p).cpu = some i := by rw [hpc]; rfl
  have hcall : Chain s.mem.next (some r) (L (.call p)) := by
    have := hi.call p
    rwa [hpc] at this
  obtain ⟨xs, hL, hxs⟩ := hcall.eq_cons
  have hempty : L (.list i) = [] := Chain.eq_nil (hi.empty p i hrun ▸ hi.list i)
  have hcpu : CpuInv ((s.setOff i false).setPc p (.found r)) := hi.leave hrun rfl
  have hcpu' : CpuInv (({ s with mem := s.mem.kallocInstall i r }.setOff i false).setPc p (.found r)) :=
    hcpu.setMem fun q j hq => Function.update_of_ne (fun hji => by
      -- the CPU was the call's own, so no call is on it any more
      have := hcpu.off q j hq
      simp [State.setPc, State.setOff, hji] at this) _ _
  refine ⟨_, hi.exchange (p := p) (.list i) xs [r] r
    (s.mem.next r) (by simp) ?_ (by simp [hL]) hcpu' rfl
    (Function.update_eq_self ..).symm ?_ ?_ rfl ?_ hi.held rfl⟩
  · rw [hL, hempty, List.nil_append]
    exact List.perm_append_singleton r xs
  · intro j hj
    exact Function.update_of_ne (fun hji => hj (by rw [hji])) _ _
  · rintro j ⟨⟩
    simpa [State.setPc, State.setOff, Kmems.kallocInstall, Kmems.setFreelist] using hxs
  · intro x
    rw [Function.update_of_ne (by simp)]
    exact hi.callers x

omit [DecidableEq τ] in
/-- A page that a call has in progress has no references. -/
theorem found_refCnt (hi : Inv kend s L) {r : ℕ} (hpc : s.pc p = .found r) :
    L (.call p) = [r] ∧ s.mem.refCnt r = 0 := by
  have hcall : L (.call p) = [r] := by
    have := hi.call p
    rwa [hpc] at this
  refine ⟨hcall, ?_⟩
  by_contra hne
  have hmem : r ∈ L (.call p) := by simp [hcall]
  cases hi.splits.place_unique hmem ((hi.callers r).mpr hne)

/-- `kalloc` hands its page out. -/
theorem finish (hi : Inv kend s L) {r : ℕ} (hpc : s.pc p = .found r) :
    ∃ L', Inv kend ({ s with
      mem := (s.mem.kincget r).2.setNext r (junk 5)
      held := Function.update s.held r (s.held r + 1) }.setPc p (.returned (some r))) L' := by
  obtain ⟨hcall, hzero⟩ := hi.found_refCnt hpc
  have hcpu : CpuInv { s with mem := (s.mem.kincget r).2.setNext r (junk 5) } :=
    hi.setMem fun _ _ _ => rfl
  have hcpu' : CpuInv (State.setPc _ p (.returned (some r))) := hcpu.setPc (.inl rfl)
  refine ⟨_, hi.exchange (p := p) .callers (r :: L .callers) [] r
    (junk 5) (by simp) ?_ (by simp [hcall]) ⟨hcpu'.off, hcpu'.empty, hcpu'.one⟩ rfl rfl
    (fun _ _ => rfl) nofun rfl ?_ ?_ rfl⟩
  · rw [hcall, List.append_nil]
    exact (List.perm_append_singleton r _).symm
  · intro x
    simp only [Function.update_self, List.mem_cons, hi.callers, State.setPc, Kmems.setNext,
      Kmems.kincget]
    grind
  · intro x
    simp only [State.setPc, Kmems.setNext, Kmems.kincget]
    grind [hi.held x, hi.held r]

/-! ### `kfree` and `kincget` -/

/-- `kfree` of a page that has other references. -/
theorem kfreeShared (hi : Inv kend s L) (hpc : s.pc p = .idle) {q : ℕ} (hq : 1 < s.mem.refCnt q) :
    Inv kend ({ s with
      mem := { s.mem with refCnt := Function.update s.mem.refCnt q (s.mem.refCnt q - 1) }
      held := Function.update s.held q (s.held q - 1) }.setPc p .idle) L where
  toCpuInv :=
    have hcpu : CpuInv (s.setPc p .idle) := hi.setPc (.inl rfl)
    ⟨hcpu.off, hcpu.empty, hcpu.one⟩
  splits := hi.splits
  list := hi.list
  call p' := by
    have := hi.call p'
    simp only [State.setPc, Function.update_apply]
    split_ifs with hp
    · subst hp
      rwa [hpc] at this
    · exact this
  callers x := by
    rw [hi.callers]
    simp only [State.setPc, Function.update_apply]
    split_ifs with hx
    · subst hx; omega
    · rfl
  held x := by
    have := hi.held
    simp only [State.setPc, Function.update_apply]
    grind
  panic := hi.panic

/-- `kfree` of a page that has no other reference takes it from the callers. -/
theorem kfreeLast (hi : Inv kend s L) (hpc : s.pc p = .idle) {q : ℕ} (hq : s.mem.refCnt q = 1) :
    ∃ L', Inv kend ({ s with
      mem := { s.mem with refCnt := Function.update s.mem.refCnt q 0 }.setNext q (junk 1)
      held := Function.update s.held q (s.held q - 1) }.setPc p (.freeing q)) L' := by
  have hcpu : CpuInv (s.setPc p (.freeing q)) := hi.setPc (.inl rfl)
  have hmem : q ∈ L .callers := (hi.callers q).mpr (by omega)
  have hnd := hi.splits.nodup .callers
  refine ⟨_, hi.exchange (p := p) .callers ((L .callers).erase q) [q] q
    (junk 1) (by simp) ?_ (by simp [hmem]) ⟨hcpu.off, hcpu.empty, hcpu.one⟩ rfl rfl
    (fun _ _ => rfl) nofun rfl ?_ ?_ rfl⟩
  · rw [hi.call_nil hpc, List.append_nil]
    exact (List.perm_append_singleton q _).trans (List.perm_cons_erase hmem).symm
  · intro x
    rw [Function.update_self, hnd.mem_erase_iff, hi.callers]
    simp only [State.setPc, Kmems.setNext, Function.update_apply]
    split_ifs with hx <;> simp [hx]
  · intro x
    have := hi.held
    simp only [State.setPc, Kmems.setNext, Function.update_apply]
    grind

/-- `kfree` puts the page on the list of the CPU it runs on. -/
theorem kfreePush (hi : Inv kend s L) {q : ℕ} (hpc : s.pc p = .freeing q) (hoff : s.off i = false) :
    ∃ L', Inv kend ({ s with mem := s.mem.kfreePush i q }.setPc p .idle) L' := by
  have hcall : L (.call p) = [q] := by
    have := hi.call p
    rwa [hpc] at this
  have hcpu : CpuInv { s with mem := s.mem.kfreePush i q } :=
    hi.setMem fun p' j hp' => Function.update_of_ne
      (fun (hji : j = i) => hi.not_cpu_of_off hoff p' (hji ▸ hp')) _ _
  have hout : q ∉ L (.list i) := fun hmem => by
    have hmem' : q ∈ L (.call p) := by simp [hcall]
    cases hi.splits.place_unique hmem hmem'
  refine ⟨_, hi.exchange (p := p) (.list i) (q :: L (.list i)) [] q
    (s.mem.freelist i) (by simp) ?_ (by simp [hcall]) (hcpu.setPc (.inl rfl)) rfl rfl
    ?_ ?_ rfl ?_ hi.held rfl⟩
  · rw [hcall, List.append_nil]
    exact (List.perm_append_singleton q _).symm
  · intro j hj
    exact Function.update_of_ne (fun hji => hj (by rw [hji])) _ _
  · rintro j ⟨⟩
    simp only [State.setPc, Kmems.kfreePush, Kmems.setFreelist, Kmems.setNext, Function.update_self]
    refine .cons ?_
    rw [Function.update_self]
    exact (hi.list i).update hout _
  · intro x
    rw [Function.update_of_ne (by simp)]
    exact hi.callers x

omit [DecidableEq τ] in
/-- `kincget` of a page that callers hold. -/
theorem kincget (hi : Inv kend s L) {q : ℕ} (hq : s.held q ≠ 0) :
    Inv kend { s with
      mem := (s.mem.kincget q).2
      held := Function.update s.held q (s.held q + 1) } L where
  toCpuInv := ⟨hi.off, hi.empty, hi.one⟩
  splits := hi.splits
  list := hi.list
  call := hi.call
  callers x := by
    have := hi.held q
    rw [hi.callers]
    simp only [Kmems.kincget, Function.update_apply]
    split_ifs with hx
    · subst hx; omega
    · rfl
  held x := by
    have := hi.held
    simp only [Kmems.kincget, Function.update_apply]
    grind
  panic := hi.panic

omit [DecidableEq τ] in
/-- A write to a page that callers hold. -/
theorem write (hi : Inv kend s L) {q : ℕ} (hq : s.held q ≠ 0) (v : Option ℕ) :
    Inv kend { s with mem := s.mem.setNext q v } L := by
  have hout : ∀ pl, pl ≠ .callers → q ∉ L pl := fun pl hpl hmem =>
    hpl (hi.splits.place_unique hmem ((hi.callers q).mpr (hi.held q ▸ hq)))
  exact {
    toCpuInv := ⟨hi.off, hi.empty, hi.one⟩
    splits := hi.splits
    list := fun i => (hi.list i).update (hout _ (by simp)) v
    call := fun p => (hi.call p).update (hout _ (by simp)) v
    callers := hi.callers
    held := hi.held
    panic := hi.panic }

end Inv

/-! ## Boot -/

/-- `kfree` of a page that has just got its only reference puts it on the boot
    CPU's list. -/
theorem freeOne_eq (k : Kmems) (q : ℕ) :
    freeOne k q =
      ({ k with refCnt := Function.update k.refCnt q 0 }.setNext q (junk 1)).kfreePush
        ⟨0, by decide⟩ q := by
  simp [freeOne, Kmems.kfreeRef]

/-- `freerange` puts its pages on the boot CPU's list, in front of what is there. -/
theorem freerange_chain (qs xs : List ℕ) {k : Kmems} (hnd : (qs.reverse ++ xs).Nodup)
    (hxs : Chain k.next (k.freelist ⟨0, by decide⟩) xs) (hcnt : ∀ q, k.refCnt q = 0)
    (hnone : ∀ i, i ≠ ⟨0, by decide⟩ → k.freelist i = none) :
    Chain (qs.foldl freeOne k).next ((qs.foldl freeOne k).freelist ⟨0, by decide⟩) (qs.reverse ++ xs) ∧
      (∀ q, (qs.foldl freeOne k).refCnt q = 0) ∧
      ∀ i, i ≠ ⟨0, by decide⟩ → (qs.foldl freeOne k).freelist i = none := by
  induction qs generalizing k xs with
  | nil => exact ⟨hxs, hcnt, hnone⟩
  | cons q qs ih =>
    rw [List.reverse_cons, List.append_assoc, List.singleton_append] at hnd ⊢
    have hq : q ∉ xs := (List.nodup_cons.mp (List.nodup_append.mp hnd).2.1).1
    rw [List.foldl_cons]
    refine ih _ hnd ?_ ?_ ?_
    · rw [freeOne_eq]
      simp only [Kmems.kfreePush, Kmems.setFreelist, Kmems.setNext, Function.update_self,
        Function.update_idem]
      refine .cons ?_
      rw [Function.update_self]
      exact hxs.update hq _
    · intro x
      rw [freeOne_eq]
      simp only [Kmems.kfreePush, Kmems.setFreelist, Kmems.setNext, Function.update_apply]
      split_ifs
      · rfl
      · exact hcnt x
    · intro i hi
      rw [freeOne_eq]
      exact (Function.update_of_ne hi _ _).trans (hnone i hi)

theorem inv_init (kend : ℕ) (next : ℕ → Option ℕ) : ∃ L, Inv kend (init kend next : State τ) L := by
  have hnd : (pages kend).Nodup := List.nodup_range'
  obtain ⟨hchain, hcnt, hnone⟩ := freerange_chain (pages kend) []
    (k := { next := next, freelist := fun _ => none, refCnt := fun _ => 0 })
    (by simpa using hnd) (.nil none) (fun _ => rfl) (fun _ _ => rfl)
  rw [List.append_nil] at hchain
  -- every page is on the first list, in the order in which `freerange` has freed them
  refine ⟨fun pl => if pl = .list ⟨0, by decide⟩ then (pages kend).reverse else [],
    ⟨nofun, nofun, nofun⟩, ⟨?_, ?_, ?_⟩, fun i => ?_, fun p => ?_, fun q => ?_, fun q => ?_, nofun⟩
  · intro pl
    split_ifs
    exacts [List.nodup_reverse.mpr hnd, List.nodup_nil]
  · intro a b hab
    split_ifs with ha hb
    · exact absurd (ha.trans hb.symm) hab
    all_goals simp
  · intro q
    constructor
    · intro hq
      exact ⟨.list ⟨0, by decide⟩, by simpa using hq⟩
    · rintro ⟨pl, hq⟩
      split_ifs at hq
      · simpa using hq
      · cases hq
  · by_cases hi : i = ⟨0, by decide⟩
    · subst hi
      rw [if_pos rfl]
      exact hchain
    · rw [if_neg (by simpa using hi)]
      exact (hnone i hi).symm ▸ .nil none
  · rw [if_neg (by simp)]
    rfl
  · simp [init, kinit, hcnt]
  · exact (hcnt q).symm

/-! ## Every run -/

theorem inv_stealRound (hi : Inv kend s L) {j : ℕ} (hpc : s.pc p = .steal i j)
    (h : stealRound kend s p i j = some s') : ∃ L', Inv kend s' L' := by
  have hcpu : (s.pc p).cpu = some i := by rw [hpc]; rfl
  have hcall : L (.call p) = [] := by
    have := hi.call p
    rwa [hpc] at this
  -- a round that finds nothing
  have hnext : Inv kend (s.setPc p (.steal i (j + 1))) L :=
    hi.keep (hi.setPc (.inr (by rw [hcpu]; rfl))) rfl rfl rfl hcall rfl
  unfold stealRound at h
  split_ifs at h with hj hji
  · cases h
    exact ⟨L, hnext⟩
  · cases hr : s.mem.freelist ⟨j, hj⟩ with
    | none =>
      simp only [Kmems.kallocSteal, hr] at h
      cases h
      exact ⟨L, hnext⟩
    | some r =>
      obtain ⟨mem, hsteal, hinv⟩ := hi.kallocSteal hpc hr
      simp only [hsteal] at h
      cases h
      exact hinv
  · cases h
    exact ⟨L, hi.keep (hi.leave hcpu rfl) rfl rfl rfl hcall rfl⟩

theorem inv_exec {a : Act τ} (hi : Inv kend s L) (h : exec kend s a = some s') :
    ∃ L', Inv kend s' L' := by
  -- a call takes pages from one place of the partition to another, or changes a count
  cases a with
  | kalloc p i =>
    cases hr : s.mem.freelist i with
    | none =>
      simp only [exec, Kmems.kallocOwn, hr] at h
      split at h <;> cases h
      · simp_all
      · next hpc hoff heq =>
        exact ⟨L, hi.keep (hi.enter hoff hr rfl) rfl rfl rfl (hi.call_nil hpc) rfl⟩
    | some r =>
      simp only [exec, Kmems.kallocOwn, hr] at h
      split at h <;> cases h
      · next hpc hoff heq =>
        cases heq
        exact hi.kallocOwn hpc hr
      · simp_all
  | steal p =>
    simp only [exec] at h
    split at h
    · next hpc => exact inv_stealRound hi hpc h
    · cases h
  | install p =>
    simp only [exec] at h
    split at h <;> cases h
    next hpc => exact hi.kallocInstall hpc
  | finish p =>
    simp only [exec] at h
    split at h
    · next r hpc =>
      obtain ⟨-, hzero⟩ := hi.found_refCnt hpc
      simp only [Kmems.kincget, hzero] at h
      cases h
      have := hi.finish hpc
      rwa [Kmems.kincget, hzero] at this
    · cases h
  | collect p =>
    simp only [exec] at h
    split at h <;> cases h
    next hpc =>
      have hcall := hi.call p
      rw [hpc] at hcall
      exact ⟨L, hi.keep (hi.setPc (.inl rfl)) rfl rfl rfl hcall rfl⟩
  | kfree p pa =>
    simp only [exec] at h
    split at h
    · next hpc =>
      split_ifs at h with haddr
      · cases h
        exact ⟨L, hi.stop (.inl rfl)⟩
      · simp only [Kmems.kfreeRef] at h
        rcases Nat.lt_trichotomy (s.mem.refCnt (pa / PGSIZE)) 1 with hzero | hone | hmany
        · rw [if_pos hzero] at h
          cases h
          exact ⟨L, hi.stop (.inr rfl)⟩
        · simp only [hone] at h
          cases h
          exact hi.kfreeLast hpc hone
        · rw [if_neg (by omega)] at h
          have hpos : s.mem.refCnt (pa / PGSIZE) - 1 > 0 := by omega
          simp only [hpos, if_true] at h
          cases h
          exact ⟨L, hi.kfreeShared hpc hmany⟩
    · cases h
  | push p i =>
    simp only [exec] at h
    split at h <;> cases h
    next hpc hoff => exact hi.kfreePush hpc hoff
  | kincget p q =>
    simp only [exec] at h
    split at h
    · split_ifs at h with hheld
      cases h
      exact ⟨L, hi.kincget hheld⟩
    · cases h
  | write q v =>
    simp only [exec] at h
    split_ifs at h with hheld
    cases h
    exact ⟨L, hi.write hheld v⟩

theorem inv_step {a : Act τ} (hi : Inv kend s L) (h : step kend s a = some s') :
    ∃ L', Inv kend s' L' := by
  unfold step at h
  split at h
  · cases h
  · exact inv_exec hi h

theorem inv_of_reachable (h : (system τ kend).Reachable s) : ∃ L, Inv kend s L :=
  System.invariant (fun s => ∃ L, Inv kend s L) (by rintro s ⟨next, rfl⟩; exact inv_init kend next)
    (fun _ _ _ ⟨_, hi⟩ _ hs => inv_step hi hs) h

/-! ## Failure -/

/-- A run in which only the caller `p` takes steps in the allocator. -/
inductive Alone (kend : ℕ) (p : τ) (s : State τ) : State τ → Prop where
  | refl : Alone kend p s s
  | step {t t' : State τ} {a : Act τ} :
      Alone kend p s t → (∀ q, a.caller = some q → q = p) → step kend t a = some t' →
      Alone kend p s t'

end Xv6.Kernel.FreeLists
