import Mathlib
import Xv6.Lib.TransitionSystem
import Xv6.Kernel.LogDisk

/-!
# Crash and Recovery

A crash may come after any prefix of the disk writes of a commit, and again after
any prefix of the writes of each recovery.

- `Recovers d h`: recovery turns the disk `d` into one with the home blocks of `h`;
  recoveries cut short keep it (`Recovers.cuts`);
- `commitTrace_cut`: a commit cut short recovers to its old or its new home blocks;
- `system`: transactions, crashes and recoveries in any order, with the invariant
  that ties log header, log blocks, cached blocks and home blocks together;
- `log_crash_atomic`: the main result.
-/

namespace Xv6.Kernel.LogRecovery

open Xv6.Lib LogDisk Machine

/-! ## Recovery as a function of the disk -/

section Recovery

variable (start size : ℕ)

/-- Reboot on the disk `d` and run `recover_from_log`. -/
def rebooted (ev : Policy) (d : Disk) : Machine := recoverFromLog ev (boot start size d)

/-- The disk after recovery. -/
def recover (ev : Policy) (d : Disk) : Disk := (rebooted start size ev d).disk

/-- The disk when recovery crashes after `k` of its writes. -/
def recoverCut (ev : Policy) (k : ℕ) (d : Disk) : Disk :=
  overlay ((rebooted start size ev d).writes.take k) d

/-- The disk after a series of interrupted recoveries. -/
def recoverCuts : List (Policy × ℕ) → Disk → Disk
  | [], d => d
  | (ev, k) :: cuts, d => recoverCuts cuts (recoverCut start size ev k d)

/-- Blocks outside the log area. -/
def Home (b : ℕ) : Prop := ¬ (start ≤ b ∧ b < start + size)

instance (b : ℕ) : Decidable (Home start size b) := inferInstanceAs (Decidable (¬ _))

/-- Two disks hold the same in all home locations. -/
def HomeEq (d e : Disk) : Prop := ∀ b, Home start size b → d b = e b

end Recovery

/-! ## What recovery makes of a disk -/

section Recovery

variable {start size : ℕ}

/-- The disk `d` has the blocks `bs` committed in its log, with contents `cs`. -/
structure Pending (start size : ℕ) (d : Disk) (bs : List ℕ) (cs : List ByteBlock) : Prop where
  header : getHeader (d start) = bs
  home : ∀ b ∈ bs, Home start size b
  nodup : bs.Nodup
  fits : bs = [] ∨ bs.length < size
  length : cs.length = bs.length
  copies : ∀ i (hi : i < cs.length), d (start + i + 1) = cs[i]

/-- Recovery turns the disk `d` into one with the home blocks of `h`. -/
def Recovers (start size : ℕ) (d h : Disk) : Prop :=
  ∃ bs cs, Pending start size d bs cs ∧ HomeEq start size (overlay (bs.zip cs) d) h

theorem Pending.ne_start {d : Disk} {bs : List ℕ} {cs : List ByteBlock}
    (h : Pending start size d bs cs) {b : ℕ} (hb : b ∈ bs) : b ≠ start := by
  rintro rfl
  rcases h.fits with rfl | hfits
  · simp at hb
  · exact h.home b hb ⟨Nat.le_refl _, by omega⟩

theorem Pending.ne_log {d : Disk} {bs : List ℕ} {cs : List ByteBlock}
    (h : Pending start size d bs cs) {b t : ℕ} (hb : b ∈ bs) (ht : t < bs.length) :
    b ≠ start + t + 1 := by
  rintro rfl
  rcases h.fits with rfl | hfits
  · simp at hb
  · exact h.home _ hb ⟨by omega, by omega⟩

/-- A disk with an empty header has nothing pending. -/
theorem pending_nil {d : Disk} (h : (d start).word 0 = 0) : Pending start size d [] [] where
  header := getHeader_eq_nil h
  home := by simp
  nodup := List.nodup_nil
  fits := .inl rfl
  length := rfl
  copies := by simp

theorem recovers_of_clear {d h : Disk} (h0 : (d start).word 0 = 0)
    (hd : HomeEq start size d h) : Recovers start size d h :=
  ⟨[], [], pending_nil h0, hd⟩

/-- Installing some of the pending blocks leaves the same blocks pending. -/
theorem Pending.install_take {d : Disk} {bs : List ℕ} {cs : List ByteBlock}
    (h : Pending start size d bs cs) (k : ℕ) :
    Pending start size (overlay ((bs.zip cs).take k) d) bs cs := by
  have hkeep : ∀ b, (∀ x ∈ bs, x ≠ b) → overlay ((bs.zip cs).take k) d b = d b := by
    intro b hb
    apply overlay_of_forall_ne
    rintro ⟨x, c⟩ hx
    exact hb x (List.of_mem_zip (List.mem_of_mem_take hx)).1
  refine ⟨?_, h.home, h.nodup, h.fits, h.length, fun i hi => ?_⟩
  · rw [hkeep start fun x hx => h.ne_start hx]
    exact h.header
  · rw [hkeep _ fun x hx => h.ne_log hx (h.length ▸ hi)]
    exact h.copies i hi

/-- Recovery installs what is pending and clears the header. -/
theorem rebooted_effect (ev : Policy) {d : Disk} {bs : List ℕ} {cs : List ByteBlock}
    (h : Pending start size d bs cs) :
    Effect (bs.zip cs ++ [(start, putHeader (d start) [])]) (boot start size d)
        (rebooted start size ev d) ∧
      (rebooted start size ev d).pins = fun _ => 0 := by
  have hc0 : (boot start size d).Coherent := fun _ _ => rfl
  have hE1 := bread_effect ev hc0 start
  have hread1 : ((boot start size d).bread ev start).2.read = d := (bread_read ev hc0 start).2
  have hhead : ((boot start size d).bread ev start).1 = d start := (bread_read ev hc0 start).1
  -- the header is read, the blocks are installed, and the header is cleared on the disk
  set m1 := readHead ev (boot start size d) with hm1
  have hlog1 : m1.log.lh = bs := by
    show getHeader ((boot start size d).bread ev start).1 = bs
    rw [hhead]
    exact h.header
  have hstart1 : m1.log.start = start := rfl
  have hm1read : m1.read = d := hread1
  have hc1 : m1.Coherent := hE1.coherent
  obtain ⟨hE2, hP2⟩ := installFrom_effect ev true cs 0 hc1 h.length
    (fun i hi => by rw [hm1read, hstart1]; simpa using h.copies i hi)
    (fun b hb t ht => h.ne_log hb (by simpa using ht))
  set m2 := installFrom ev true 0 bs m1 with hm2
  have h01 : Effect [] (boot start size d) (clearLh m1) :=
    ⟨hE1.disk, hE1.read, hE1.writes, rfl, hE1.coherent⟩
  have h02 := h01.trans (clearLh_effect hE2)
  obtain ⟨hE3, hP3⟩ := writeHead_effect ev h02.coherent
  have hstart2 : (clearLh m2).read (clearLh m2).log.start = d start := by
    rw [h02.log, h02.read]
    exact overlay_of_forall_ne _ fun ⟨x, c⟩ hx => h.ne_start (List.of_mem_zip hx).1
  rw [hstart2] at hE3
  have hrun : rebooted start size ev d = writeHead ev (clearLh m2) := by
    simp only [rebooted, recoverFromLog, installTrans, ← hm1, hlog1, ← hm2]
  rw [hrun]
  have hE := h02.trans hE3
  rw [h02.log] at hE
  refine ⟨hE, ?_⟩
  rw [hP3]
  exact hP2

theorem home_ne_start (hsize : 0 < size) {b : ℕ} (hb : Home start size b) : b ≠ start :=
  fun he => hb ⟨he.ge, by omega⟩

/-- Once everything pending is installed and the header cleared, the disk has recovered. -/
theorem clear_header (d : Disk) (bs : List ℕ) (cs : List ByteBlock) (hsize : 0 < size)
    {hb : ByteBlock} (h0 : hb.word 0 = 0) :
    ((overlay (bs.zip cs ++ [(start, hb)]) d) start).word 0 = 0 ∧
      HomeEq start size (overlay (bs.zip cs ++ [(start, hb)]) d) (overlay (bs.zip cs) d) :=
  ⟨by rw [overlay_concat_self]; exact h0,
    fun _ hb => overlay_concat_of_ne _ _ _ (home_ne_start hsize hb)⟩

theorem Recovers.recover (hsize : 0 < size) {d h : Disk} (hr : Recovers start size d h)
    (ev : Policy) :
    HomeEq start size (recover start size ev d) h ∧
      ((LogRecovery.recover start size ev d) start).word 0 = 0 := by
  obtain ⟨bs, cs, hp, heq⟩ := hr
  have hd : LogRecovery.recover start size ev d
      = overlay (bs.zip cs ++ [(start, putHeader (d start) [])]) d := (rebooted_effect ev hp).1.disk
  obtain ⟨hz, hh⟩ := clear_header d bs cs hsize
    (word_putHeader_nil (d start))
  rw [hd]
  exact ⟨fun b hb => (hh b hb).trans (heq b hb), hz⟩

/-- A recovery that is cut short leaves a disk that recovers to the same state. -/
theorem Recovers.cut (hsize : 0 < size) {d h : Disk} (hr : Recovers start size d h)
    (ev : Policy) (k : ℕ) : Recovers start size (recoverCut start size ev k d) h := by
  obtain ⟨bs, cs, hp, heq⟩ := hr
  have hw : (rebooted start size ev d).writes
      = bs.zip cs ++ [(start, putHeader (d start) [])] := (rebooted_effect ev hp).1.writes
  rw [recoverCut, hw]
  by_cases hk : k ≤ (bs.zip cs).length
  · -- cut while installing: the same blocks are still pending
    rw [List.take_append_of_le_length hk]
    exact ⟨bs, cs, hp.install_take k, by rwa [overlay_overlay_take]⟩
  · -- cut after the header was cleared
    rw [List.take_of_length_le (by simp only [List.length_append, List.length_singleton]; omega)]
    obtain ⟨hz, hh⟩ := clear_header d bs cs hsize
      (word_putHeader_nil (d start))
    exact recovers_of_clear hz fun b hb => (hh b hb).trans (heq b hb)

theorem Recovers.cuts (hsize : 0 < size) {d h : Disk} (hr : Recovers start size d h)
    (cuts : List (Policy × ℕ)) : Recovers start size (recoverCuts start size cuts d) h := by
  induction cuts generalizing d with
  | nil => exact hr
  | cons c cuts ih => exact ih (hr.cut hsize c.1 c.2)

/-- Recovering a recovered disk changes no block. -/
theorem recover_of_clear {d : Disk} (h0 : (d start).word 0 = 0) (ev : Policy) :
    recover start size ev d = d := by
  have hd : recover start size ev d = overlay [(start, putHeader (d start) [])] d :=
    (rebooted_effect ev (pending_nil h0)).1.disk
  rw [hd, putHeader_nil_of_word h0, overlay_cons, overlay_nil, Function.update_eq_self]

/-- **A cut commit.** On a disk with an empty header, after any prefix of the writes of a
    commit recovery restores either the home blocks the commit found or those it was
    to install. -/
theorem commitTrace_cut (hsize : 0 < size) {d : Disk} {bs : List ℕ} {cs : List ByteBlock}
    {h₁ h₂ : ByteBlock} (h0 : (d start).word 0 = 0) (hhome : ∀ b ∈ bs, Home start size b)
    (hnd : bs.Nodup) (hfits : bs.length < size) (hlen : cs.length = bs.length)
    (hh₁ : getHeader h₁ = bs) (hh₂ : h₂.word 0 = 0) (k : ℕ) :
    Recovers start size (overlay ((commitTrace start bs cs h₁ h₂).take k) d) d ∨
      Recovers start size (overlay ((commitTrace start bs cs h₁ h₂).take k) d)
        (overlay (bs.zip cs) d) := by
  have hAlen : (logCopies start 0 cs).length = bs.length := by rw [logCopies_length, hlen]
  have hZlen : (bs.zip cs).length = bs.length := by simp [hlen]
  have hArange : ∀ w ∈ logCopies start 0 cs, start < w.1 ∧ w.1 < start + size := by
    intro w hw
    have := logCopies_fst hw
    omega
  by_cases hk1 : k ≤ (logCopies start 0 cs).length
  · -- the log blocks are being written: the header is still empty
    left
    have htake : (commitTrace start bs cs h₁ h₂).take k = (logCopies start 0 cs).take k := by
      simp only [commitTrace, List.append_assoc]
      exact List.take_append_of_le_length hk1
    rw [htake]
    apply recovers_of_clear
    · rw [overlay_of_forall_ne]
      · exact h0
      · intro w hw
        have := hArange w (List.mem_of_mem_take hw)
        omega
    · intro b hb
      apply overlay_of_forall_ne
      rintro w hw rfl
      have := hArange w (List.mem_of_mem_take hw)
      exact hb ⟨by omega, this.2⟩
  · right
    -- the disk at the commit point
    set d₁ := overlay (logCopies start 0 cs ++ [(start, h₁)]) d with hd₁
    have hp : Pending start size d₁ bs cs := by
      refine ⟨by rw [hd₁, overlay_concat_self]; exact hh₁, hhome, hnd, .inr hfits, hlen, ?_⟩
      intro i hi
      rw [hd₁, overlay_concat_of_ne _ _ _ (by omega)]
      simpa using overlay_logCopies start 0 d hi
    have hd₁home : HomeEq start size d₁ d := by
      intro b hb
      rw [hd₁, overlay_concat_of_ne _ _ _ (home_ne_start hsize hb)]
      apply overlay_of_forall_ne
      rintro w hw rfl
      have := hArange w hw
      exact hb ⟨by omega, this.2⟩
    have hZ : HomeEq start size (overlay (bs.zip cs) d₁) (overlay (bs.zip cs) d) :=
      fun b hb => overlay_agree (.inr (hd₁home b hb))
    have htrace : commitTrace start bs cs h₁ h₂
        = (logCopies start 0 cs ++ [(start, h₁)]) ++ (bs.zip cs ++ [(start, h₂)]) := by
      simp only [commitTrace, List.append_assoc]
    obtain ⟨j, hj⟩ : ∃ j, k = (logCopies start 0 cs ++ [(start, h₁)]).length + j :=
      ⟨k - (bs.length + 1), by simp only [List.length_append, List.length_singleton]; omega⟩
    rw [htrace, hj, List.take_length_add_append, overlay_append, ← hd₁]
    by_cases hk2 : j ≤ (bs.zip cs).length
    · -- the home blocks are being written: the same blocks are pending
      rw [List.take_append_of_le_length hk2]
      exact ⟨bs, cs, hp.install_take j, by rwa [overlay_overlay_take]⟩
    · -- the header has been cleared
      rw [List.take_of_length_le
        (by simp only [List.length_append, List.length_singleton]; omega)]
      obtain ⟨hz, hh⟩ := clear_header d₁ bs cs hsize hh₂
      exact recovers_of_clear hz fun b hb => (hh b hb).trans (hZ b hb)

end Recovery

/-! ## Transactions and crashes -/

/-- A running file system. `home` and `txn` are history: the home blocks as of the last
    commit or recovery, and the block contents logged since. -/
structure State where
  m : Machine
  home : Disk
  txn : Writes

inductive Event where
  | beginOp
  /-- Any read of block `b` through the cache -/
  | bread (ev : Policy) (b : ℕ)
  /-- `log_write` of block `b`, whose buffer the caller has filled with `data` -/
  | logWrite (b : ℕ) (data : ByteBlock)
  /-- `end_op`, with the whole commit if it is the last one -/
  | endOp (ev : Policy)
  /-- Crash while no commit is running, then recoveries cut short, then a full one -/
  | crash (cuts : List (Policy × ℕ)) (ev : Policy)
  /-- Crash after `k` disk writes of the commit that `end_op` would run -/
  | crashInCommit (evc : Policy) (k : ℕ) (cuts : List (Policy × ℕ)) (ev : Policy)

section System

variable (start : ℕ)

/-- The disk when the commit of `m` crashes after `k` of its writes. -/
def commitCut (ev : Policy) (k : ℕ) (m : Machine) : Disk :=
  overlay ((commitWrites ev m).take k) m.disk

/-- Up again after a crash that left the disk `d`. -/
def afterCrash (cuts : List (Policy × ℕ)) (ev : Policy) (d : Disk) : State :=
  let m := rebooted start LOGSIZE ev (recoverCuts start LOGSIZE cuts d)
  { m := m, home := m.disk, txn := [] }

/-- One event. The callers of `log_write` only log home blocks; a sleeping `begin_op`
    and a `log_write` that panics are disabled. -/
def step (s : State) : Event → Option State
  | .beginOp => s.m.log.beginOp.map fun l => { s with m := { s.m with log := l } }
  | .bread ev b => some { s with m := (s.m.bread ev b).2 }
  | .logWrite b data =>
    if Home start LOGSIZE b ∧ b < 2 ^ 32 then
      match s.m.log.logWrite b with
      | .ok (l, pin) => some { s with m := s.m.logged l pin b data, txn := s.txn ++ [(b, data)] }
      | .error _ => none
    else none
  | .endOp ev =>
    match s.m.log.endOp with
    | .ok (l, false) => some { s with m := { s.m with log := l } }
    | .ok (l, true) =>
      let m := commit ev { s.m with log := l }
      some { m := { m with log := m.log.endCommit }, home := overlay s.txn s.home, txn := [] }
    | .error _ => none
  | .crash cuts ev => some (afterCrash start cuts ev s.m.disk)
  | .crashInCommit evc k cuts ev =>
    match s.m.log.endOp with
    | .ok (l, true) => some (afterCrash start cuts ev (commitCut evc k { s.m with log := l }))
    | _ => none

/-- Booted on a disk whose log header is empty, as `mkfs` writes it. -/
def system : Lib.System State Event where
  init s := ∃ d : Disk, (d start).word 0 = 0 ∧ s = { m := boot start LOGSIZE d, home := d, txn := [] }
  step := step start

/-! ## The invariant -/

structure Inv (s : State) : Prop where
  startEq : s.m.log.start = start
  sizeEq : s.m.log.size = LOGSIZE
  notCommitting : s.m.log.committing = false
  header : (s.m.disk start).word 0 = 0
  home : HomeEq start LOGSIZE s.m.disk s.home
  coherent : s.m.Coherent
  pins : ∀ b, s.m.pins b = if b ∈ s.m.log.lh then 1 else 0
  nodup : s.m.log.lh.Nodup
  lhHome : ∀ b ∈ s.m.log.lh, Home start LOGSIZE b
  lhLt : ∀ b ∈ s.m.log.lh, b < 2 ^ 32
  fits : s.m.log.lh.length < LOGSIZE
  /-- the cached copy of a logged block is its latest contents -/
  logged : ∀ b ∈ s.m.log.lh, s.m.read b = overlay s.txn s.home b
  txnLogged : ∀ w ∈ s.txn, w.1 ∈ s.m.log.lh

variable {start}

theorem inv_up {m : Machine} (hlog : m.log = (boot start LOGSIZE m.disk).log)
    (h0 : (m.disk start).word 0 = 0) (hc : m.Coherent) (hpins : m.pins = fun _ => 0) :
    Inv start { m := m, home := m.disk, txn := [] } where
  startEq := by simp [hlog, boot]
  sizeEq := by simp [hlog, boot]
  notCommitting := by simp [hlog, boot]
  header := h0
  home := fun _ _ => rfl
  coherent := hc
  pins := by simp [hlog, boot, hpins]
  nodup := by simp [hlog, boot]
  lhHome := by simp [hlog, boot]
  lhLt := by simp [hlog, boot]
  fits := by simp [hlog, boot, LOGSIZE, MAXOPBLOCKS]
  logged := by simp [hlog, boot]
  txnLogged := by simp

theorem inv_afterCrash {d h : Disk} (hr : Recovers start LOGSIZE d h)
    (cuts : List (Policy × ℕ)) (ev : Policy) : Inv start (afterCrash start cuts ev d) := by
  have hr' := hr.cuts (by decide) cuts
  obtain ⟨bs, cs, hp, -⟩ := id hr'
  obtain ⟨hE, hP⟩ := rebooted_effect ev hp
  exact inv_up hE.log (hr'.recover (by decide) ev).2 hE.coherent hP

/-- While no commit runs, the home blocks are those of the last commit. -/
theorem Inv.recovers {s : State} (hi : Inv start s) : Recovers start LOGSIZE s.m.disk s.home :=
  recovers_of_clear hi.header hi.home

theorem Inv.ne_log {s : State} (hi : Inv start s) {b t : ℕ} (hb : b ∈ s.m.log.lh)
    (ht : t < s.m.log.lh.length) : b ≠ s.m.log.start + t + 1 := by
  have := hi.fits
  rw [hi.startEq]
  rintro rfl
  exact hi.lhHome _ hb ⟨by omega, by omega⟩

/-- Installing the logged blocks over the old home blocks gives the transaction's result. -/
theorem Inv.installed {s : State} (hi : Inv start s) :
    HomeEq start LOGSIZE (overlay (s.m.log.lh.zip (s.m.log.lh.map s.m.read)) s.m.disk)
      (overlay s.txn s.home) := by
  intro b hb
  by_cases hlh : b ∈ s.m.log.lh
  · obtain ⟨i, hlt, rfl⟩ := List.getElem_of_mem hlh
    rw [overlay_zip_getElem hi.nodup _ hlt (by simpa using hlt), List.getElem_map]
    exact hi.logged _ hlh
  · rw [overlay_of_forall_ne _ fun w hw => ?_, overlay_of_forall_ne _ fun w hw => ?_]
    · exact hi.home b hb
    · rintro rfl
      exact hlh (hi.txnLogged w hw)
    · rintro rfl
      exact hlh (List.of_mem_zip hw).1

/-- The machine in which `end_op` runs the commit. -/
theorem endOp_log {s : State} {l : Log} {c : Bool} (h : s.m.log.endOp = .ok (l, c)) :
    l.start = s.m.log.start ∧ l.size = s.m.log.size ∧ l.lh = s.m.log.lh ∧ l.committing = c := by
  obtain ⟨-, -, rfl⟩ := Log.endOp_eq_ok h
  exact ⟨rfl, rfl, rfl, rfl⟩

/-- A commit that crashes recovers to the home blocks before it or after it. -/
theorem Inv.commitCut {s : State} (hi : Inv start s) {l : Log}
    (hend : s.m.log.endOp = .ok (l, true)) (ev : Policy) (k : ℕ) :
    Recovers start LOGSIZE (commitCut ev k { s.m with log := l }) s.home ∨
      Recovers start LOGSIZE (LogRecovery.commitCut ev k { s.m with log := l })
        (overlay s.txn s.home) := by
  obtain ⟨hstart, -, hlh, -⟩ := endOp_log hend
  by_cases hne : l.lh = []
  · -- nothing logged: the commit writes nothing
    left
    have : commitWrites ev { s.m with log := l } = [] := by
      simp [commitWrites, commit, Log.n, hne]
    rw [LogRecovery.commitCut, this, List.take_nil, overlay_nil]
    exact hi.recovers
  · set m : Machine := { s.m with log := l, writes := [] } with hm
    obtain ⟨h₁, h₂, hh₁, hh₂, hE, -⟩ := commit_effect ev (m := m) hi.coherent hne
      (fun b hb t ht => by
        rw [show m.log.start = s.m.log.start from hstart]
        exact hi.ne_log (hlh ▸ hb) (by rw [← hlh]; exact ht))
    have hw : commitWrites ev { s.m with log := l }
        = commitTrace start s.m.log.lh (s.m.log.lh.map s.m.read) h₁ h₂ := by
      have := hE.writes
      rw [show (clearLh m).writes = [] from rfl, List.nil_append] at this
      rw [commitWrites, this]
      show commitTrace l.start l.lh (l.lh.map s.m.read) h₁ h₂ = _
      rw [hstart, hlh, hi.startEq]
    rw [LogRecovery.commitCut, hw]
    have hhead : getHeader h₁ = s.m.log.lh := by
      have hfits := hi.fits
      rw [hh₁]
      show getHeader (putHeader _ l.lh) = _
      rw [hlh]
      exact getHeader_putHeader (by simp only [LOGSIZE, MAXOPBLOCKS] at hfits; omega) hi.lhLt
    refine (commitTrace_cut (by decide) hi.header hi.lhHome hi.nodup hi.fits
      (List.length_map s.m.read) hhead hh₂ k).imp (fun h => ?_) fun h => ?_
    · obtain ⟨bs, cs, hp, heq⟩ := h
      exact ⟨bs, cs, hp, fun b hb => (heq b hb).trans (hi.home b hb)⟩
    · obtain ⟨bs, cs, hp, heq⟩ := h
      exact ⟨bs, cs, hp, fun b hb => (heq b hb).trans (hi.installed b hb)⟩

/-! ## Every event keeps the invariant -/

theorem Inv.of_log {s : State} (hi : Inv start s) {l : Log} (hstart : l.start = s.m.log.start)
    (hsize : l.size = s.m.log.size) (hlh : l.lh = s.m.log.lh) (hc : l.committing = false) :
    Inv start { s with m := { s.m with log := l } } where
  startEq := hstart.trans hi.startEq
  sizeEq := hsize.trans hi.sizeEq
  notCommitting := hc
  header := hi.header
  home := hi.home
  coherent := hi.coherent
  pins := fun b => by simpa [hlh] using hi.pins b
  nodup := by simpa [hlh] using hi.nodup
  lhHome := by simpa [hlh] using hi.lhHome
  lhLt := by simpa [hlh] using hi.lhLt
  fits := by simpa [hlh] using hi.fits
  logged := by rw [hlh]; exact hi.logged
  txnLogged := by simpa [hlh] using hi.txnLogged

theorem inv_bread {s : State} (hi : Inv start s) (ev : Policy) (b : ℕ) :
    Inv start { s with m := (s.m.bread ev b).2 } where
  startEq := hi.startEq
  sizeEq := hi.sizeEq
  notCommitting := hi.notCommitting
  header := hi.header
  home := hi.home
  coherent := (bread_effect ev hi.coherent b).coherent
  pins := hi.pins
  nodup := hi.nodup
  lhHome := hi.lhHome
  lhLt := hi.lhLt
  fits := hi.fits
  logged := by rw [(bread_read ev hi.coherent b).2]; exact hi.logged
  txnLogged := hi.txnLogged

theorem inv_logWrite {s : State} (hi : Inv start s) {b : ℕ} {data : ByteBlock}
    (hb : Home start LOGSIZE b) (hlt : b < 2 ^ 32) {l : Log} {pin : Bool}
    (hw : s.m.log.logWrite b = .ok (l, pin)) :
    Inv start { s with m := s.m.logged l pin b data, txn := s.txn ++ [(b, data)] } := by
  obtain ⟨hfull, -, hpin, hl⟩ := Log.logWrite_eq_ok hw
  have hlog : (s.m.logged l pin b data).log = l := by cases pin <;> rfl
  have hdisk : (s.m.logged l pin b data).disk = s.m.disk := by cases pin <;> rfl
  have hlh : l.lh = if b ∈ s.m.log.lh then s.m.log.lh else s.m.log.lh ++ [b] := by rw [hl]
  -- the block is in the header now, and was there before if it has been absorbed
  have hmem : ∀ c, c ∈ l.lh ↔ c ∈ s.m.log.lh ∨ c = b := by
    intro c
    rw [hlh]
    split
    · next hin => exact ⟨.inl, fun h => h.elim id fun he => he ▸ hin⟩
    · simp
  have hpins : ∀ c, (s.m.logged l pin b data).pins c = if c ∈ l.lh then 1 else 0 := by
    intro c
    have hc := hi.pins c
    by_cases hin : b ∈ s.m.log.lh
    · have hp : pin = false := by
        cases pin with
        | false => rfl
        | true => exact absurd hin (hpin.mp rfl)
      subst hp
      simpa [Machine.logged, hlh, hin] using hc
    · have hp : pin = true := hpin.mpr hin
      subst hp
      by_cases hcb : c = b
      · subst hcb
        simp [Machine.logged, bpin, hlh, hin, hc]
      · simp [Machine.logged, bpin, hlh, hin, hcb, hc]
  refine ⟨?_, ?_, ?_, ?_, ?_, ?_, ?_, ?_, ?_, ?_, ?_, ?_, ?_⟩
  · rw [hlog, hl]; exact hi.startEq
  · rw [hlog, hl]; exact hi.sizeEq
  · rw [hlog, hl]; exact hi.notCommitting
  · rw [hdisk]; exact hi.header
  · rw [hdisk]; exact hi.home
  · intro c hc
    have hnot : c ∉ l.lh := fun hin => by rw [hpins c, if_pos hin] at hc; cases hc
    have hcb : c ≠ b := fun he => hnot ((hmem c).mpr (.inr he))
    have hold : c ∉ s.m.log.lh := fun hin => hnot ((hmem c).mpr (.inl hin))
    rw [logged_read, hdisk, Function.update_of_ne hcb]
    exact hi.coherent c (by rw [hi.pins c, if_neg hold])
  · intro c
    rw [hlog]
    exact hpins c
  · rw [hlog, hlh]
    split
    · exact hi.nodup
    · next hin =>
      refine List.nodup_append.mpr ⟨hi.nodup, by simp, ?_⟩
      rintro x hx y hy rfl
      exact hin (by simpa using List.mem_singleton.mp hy ▸ hx)
  · rw [hlog]
    intro c hc
    exact ((hmem c).mp hc).elim (hi.lhHome c) fun he => he ▸ hb
  · rw [hlog]
    intro c hc
    exact ((hmem c).mp hc).elim (hi.lhLt c) fun he => he ▸ hlt
  · rw [hlog, hlh]
    have hfits := hi.fits
    split
    · exact hfits
    · simp only [Log.Full, Log.n, hi.sizeEq, not_or] at hfull
      simp only [List.length_append, List.length_singleton]
      omega
  · rw [hlog]
    intro c hc
    rw [logged_read]
    by_cases hcb : c = b
    · subst hcb
      rw [Function.update_self, overlay_concat_self]
    · rw [Function.update_of_ne hcb, overlay_concat_of_ne _ _ _ hcb]
      exact hi.logged c (((hmem c).mp hc).resolve_right hcb)
  · rw [hlog]
    intro w hw'
    rcases List.mem_append.mp hw' with h | h
    · exact (hmem w.1).mpr (.inl (hi.txnLogged w h))
    · rw [List.mem_singleton] at h
      exact (hmem w.1).mpr (.inr (by rw [h]))

theorem inv_commit {s : State} (hi : Inv start s) {l : Log}
    (hend : s.m.log.endOp = .ok (l, true)) (ev : Policy) :
    Inv start { m := { commit ev { s.m with log := l } with
        log := (commit ev { s.m with log := l }).log.endCommit }
                home := overlay s.txn s.home, txn := [] } := by
  obtain ⟨hstart, hsize, hlh, -⟩ := endOp_log hend
  by_cases hne : l.lh = []
  · -- nothing was logged, so nothing is committed
    have htxn : s.txn = [] := by
      rw [List.eq_nil_iff_forall_not_mem]
      intro w hw
      have := hi.txnLogged w hw
      rw [← hlh, hne] at this
      simp at this
    have hrun : commit ev { s.m with log := l } = { s.m with log := l } := by
      simp [commit, Log.n, hne]
    rw [hrun, htxn, overlay_nil]
    have := hi.of_log (l := l.endCommit) hstart hsize hlh rfl
    rw [show s = { m := s.m, home := s.home, txn := [] } by rw [← htxn]] at this
    exact this
  · set m : Machine := { s.m with log := l } with hm
    obtain ⟨h₁, h₂, -, hh₂, hE, hP⟩ := commit_effect ev (m := m) hi.coherent hne
      (fun b hb t ht => by
        rw [show m.log.start = s.m.log.start from hstart]
        exact hi.ne_log (hlh ▸ hb) (by rw [← hlh]; exact ht))
    have hlog : (commit ev m).log = { l with lh := [] } := hE.log
    have hdisk : (commit ev m).disk
        = overlay (commitTrace start s.m.log.lh (s.m.log.lh.map s.m.read) h₁ h₂) s.m.disk := by
      have := hE.disk
      rw [this]
      show overlay (commitTrace l.start l.lh (l.lh.map s.m.read) h₁ h₂) s.m.disk = _
      rw [hstart, hlh, hi.startEq]
    have hpins : ∀ b, (commit ev m).pins b = 0 := by
      intro b
      rw [hP]
      show s.m.pins b - l.lh.count b = 0
      rw [hlh, hi.pins b]
      split
      · next hin => rw [List.count_eq_one_of_mem hi.nodup hin]
      · next hin => rw [List.count_eq_zero_of_not_mem hin]
    refine ⟨?_, ?_, rfl, ?_, ?_, hE.coherent, ?_, ?_, ?_, ?_, ?_, ?_, by simp⟩
    · show (commit ev m).log.start = start
      rw [hlog]
      exact hstart.trans hi.startEq
    · show (commit ev m).log.size = LOGSIZE
      rw [hlog]
      exact hsize.trans hi.sizeEq
    · show ((commit ev m).disk start).word 0 = 0
      rw [hdisk, commitTrace, overlay_concat_self]
      exact hh₂
    · -- the log copies and the header lie outside the home blocks
      intro b hb
      show (commit ev m).disk b = _
      have hbs : b ≠ start := home_ne_start (by decide) hb
      rw [hdisk, commitTrace, overlay_concat_of_ne _ _ _ hbs, overlay_append]
      refine Eq.trans ?_ (hi.installed b hb)
      apply overlay_agree
      right
      rw [overlay_concat_of_ne _ _ _ hbs]
      apply overlay_of_forall_ne
      rintro w hw rfl
      have hfits := hi.fits
      have := logCopies_fst hw
      rw [List.length_map] at this
      exact hb ⟨by omega, by omega⟩
    · intro b
      simp [hlog, Log.endCommit, hpins b]
    · simp [hlog, Log.endCommit]
    · simp [hlog, Log.endCommit]
    · simp [hlog, Log.endCommit]
    · simp [hlog, Log.endCommit, LOGSIZE, MAXOPBLOCKS]
    · simp [hlog, Log.endCommit]

theorem inv_step {s s' : State} {e : Event} (hi : Inv start s) (h : step start s e = some s') :
    Inv start s' := by
  cases e with
  | beginOp =>
    obtain ⟨l, hl, rfl⟩ := Option.map_eq_some_iff.mp h
    obtain ⟨hc, -, rfl⟩ := Log.beginOp_eq_some hl
    exact hi.of_log rfl rfl rfl hc
  | bread ev b =>
    cases h
    exact inv_bread hi ev b
  | logWrite b data =>
    simp only [step] at h
    split at h
    · next hb =>
      split at h
      · next l pin hw =>
        cases h
        exact inv_logWrite hi hb.1 hb.2 hw
      · cases h
    · cases h
  | endOp ev =>
    simp only [step] at h
    split at h
    -- `end_op` of an operation that is not the last leaves the log as it is.
    · next l hend =>
      obtain ⟨hstart, hsize, hlh, hc⟩ := endOp_log hend
      cases h
      exact hi.of_log hstart hsize hlh hc
    · next l hend =>
      cases h
      exact inv_commit hi hend ev
    · cases h
  | crash cuts ev =>
    cases h
    exact inv_afterCrash hi.recovers cuts ev
  | crashInCommit evc k cuts ev =>
    -- A crash inside a commit leaves the disk of before or of after its header write.
    simp only [step] at h
    split at h
    · next l hend =>
      cases h
      exact (hi.commitCut hend evc k).elim (inv_afterCrash · cuts ev) (inv_afterCrash · cuts ev)
    · cases h

theorem inv_of_reachable {s : State} (h : (system start).Reachable s) : Inv start s :=
  System.invariant (Inv start)
    (by
      rintro s ⟨d, h0, rfl⟩
      exact inv_up (m := boot start LOGSIZE d) rfl h0 (fun _ _ => rfl) rfl)
    (fun _ _ _ hi _ hs => inv_step hi hs) h

/-! ## Crash atomicity -/

/-- Every recovery of `d`, however often cut short, gives the home blocks of `h`, and
    recovering once more changes nothing. -/
def RecoversTo (start : ℕ) (d h : Disk) : Prop :=
  ∀ cuts ev,
    HomeEq start LOGSIZE (recover start LOGSIZE ev (recoverCuts start LOGSIZE cuts d)) h ∧
    ∀ ev', recover start LOGSIZE ev' (recover start LOGSIZE ev (recoverCuts start LOGSIZE cuts d)) =
      recover start LOGSIZE ev (recoverCuts start LOGSIZE cuts d)

theorem Recovers.to {d h : Disk} (hr : Recovers start LOGSIZE d h) : RecoversTo start d h := by
  intro cuts ev
  obtain ⟨heq, h0⟩ := (hr.cuts (by decide) cuts).recover (by decide) ev
  exact ⟨heq, recover_of_clear h0⟩

/-- **Crash atomicity.** In every state reached by transactions, crashes and recoveries:
    a crash while no commit runs recovers to the home blocks of the last commit, and a
    crash after any `k` writes of a commit recovers either to these or to these with
    all blocks of the transaction applied. -/
theorem log_crash_atomic {s : State} (hs : (system start).Reachable s) :
    HomeEq start LOGSIZE s.m.disk s.home ∧ RecoversTo start s.m.disk s.home ∧
    ∀ l ev k, s.m.log.endOp = .ok (l, true) →
      RecoversTo start (commitCut ev k { s.m with log := l }) s.home ∨
      RecoversTo start (commitCut ev k { s.m with log := l }) (overlay s.txn s.home) := by
  have hi := inv_of_reachable hs
  exact ⟨hi.home, hi.recovers.to, fun l ev k hend => (hi.commitCut hend ev k).imp Recovers.to Recovers.to⟩

/-- One operation has logged one block and is about to end. -/
def oneBlockLogged : State where
  m := { boot 2 LOGSIZE (fun _ => ByteBlock.zero) with
          log := { (boot 2 LOGSIZE (fun _ => ByteBlock.zero)).log with outstanding := 1 } }.logged
        { start := 2, size := LOGSIZE, outstanding := 1, committing := false, lh := [1100] } true
        1100 (fun _ => 7)
  home := fun _ => ByteBlock.zero
  txn := [(1100, fun _ => 7)]

/-- Wherever the commit of that block is cut, it is recovered or as if never written. -/
theorem oneBlockLogged_crash :
    ∃ l, oneBlockLogged.m.log.endOp = .ok (l, true) ∧ ∀ ev k,
      RecoversTo 2 (commitCut ev k { oneBlockLogged.m with log := l }) oneBlockLogged.home ∨
      RecoversTo 2 (commitCut ev k { oneBlockLogged.m with log := l })
        (overlay oneBlockLogged.txn oneBlockLogged.home) := by
  have hreach : (system 2).Reachable oneBlockLogged :=
    .step (a := .logWrite 1100 fun _ => 7)
      (.step (a := .beginOp) (.init ⟨fun _ => ByteBlock.zero, rfl, rfl⟩) trivial rfl) trivial rfl
  exact ⟨_, rfl, fun ev k => (log_crash_atomic hreach).2.2 _ ev k rfl⟩

end System

end Xv6.Kernel.LogRecovery
