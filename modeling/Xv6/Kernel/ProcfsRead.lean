import Mathlib
import Xv6.Kernel.Procfs

/-!
# Reading Files of procfs

The text of a file of procfs is made afresh by every `read`, from the process that has the
pid of the inode by then, and `fileread` moves the offset by what the reader got.

The lock of the process is dropped between the lookup and the rendering, and nobody asks
whether the lookup has found a process at all.

- `fileread_eq`: one read of a process that is there;
- `readAll_bytes`: what a sequence of reads of one text gets;
- `reads_iff`: reads are as they should be exactly if the process is there at every one.
-/

namespace Xv6.Kernel.Procfs

/-! ## The code -/

/-- One `read`, and what it meets -/
structure Call where
  n : ℤ
  /-- The process table that `get_proc_by_pid` goes through -/
  table : State
  /-- What is in the slot that was found when its text is made; `none` if its `tshared` is
      null again -/
  slot : Option Proc
  ticks : ℕ
  /-- `copyout` fails after `k` characters if this is `some k`. -/
  copyout : Option ℕ

/-- What a `read` does: the value returned, the characters copied out, and the process whose
    text they are from -/
structure Outcome where
  ret : ℤ
  bytes : List Char
  source : Option Proc

/-- The characters of a text, and its terminating NUL -/
def rendered (text : String) : List Char := text.toList ++ ['\x00']

/-- The end of `procfsread`: copy from `data + off`. -/
def copyText (text : String) (off : ℤ) (c : Call) (source : Option Proc) : Outcome :=
  let n := min c.n (1 + text.toList.length - off)
  if n ≤ 0 then ⟨0, [], source⟩
  else
    let bytes := ((rendered text).drop off.toNat).take n.toNat
    match c.copyout with
    | none => ⟨n, bytes, source⟩
    | some k => ⟨-1, bytes.take k, source⟩

/-- `procfsread` on a file with this inode number -/
def procfsreadFile (inum : BitVec 32) (off : ℤ) (c : Call) : Except String Outcome :=
  match nodeOf inum PROCFS with
  | .mainFile _ => .ok (copyText (writeUptime c.ticks) off c none)
  | .procFile pid _ =>
    match getProcByPid c.table pid with
    -- `write_proc_status` reads through a null pointer
    | none => .error "kerneltrap"
    | some _ =>
      match c.slot with
      | none => .error "kerneltrap"
      | some p => .ok (copyText (writeProcStatus p) off c (some p))
  | _ => .error "not a file"

/-- `fileread` on a descriptor of the file, with the offset of the next one -/
def fileread (inum : BitVec 32) (off : BitVec 32) (c : Call) :
    Except String (Outcome × BitVec 32) :=
  match procfsreadFile inum off.toInt c with
  | .error e => .error e
  | .ok o => .ok (o, if 0 < o.ret then off + BitVec.ofInt 32 o.ret else off)

/-- Reads one after the other -/
def readAll (inum : BitVec 32) : BitVec 32 → List Call → Except String (List Outcome)
  | _, [] => .ok []
  | off, c :: cs =>
    match fileread inum off c with
    | .error e => .error e
    | .ok (o, off) =>
      match readAll inum off cs with
      | .error e => .error e
      | .ok os => .ok (o :: os)

/-! ## The law -/

/-- A number of the file of the main directory, or of a process -/
def IsFile (inum : BitVec 32) : Prop :=
  nodeOf inum PROCFS = .mainFile 0 ∨ ∃ pid, nodeOf inum PROCFS = .procFile pid 0

/-- A process with this pid that is there -/
def Alive (pid : BitVec 32) (p : Proc) : Prop :=
  p.pid = pid ∧ p.state ≠ .unused ∧ p.state ≠ .used

/-- The text that a read of the file makes -/
def text (inum : BitVec 32) (c : Call) : Option String :=
  match nodeOf inum PROCFS with
  | .mainFile _ => some (writeUptime c.ticks)
  | _ => c.slot.map writeProcStatus

/-- The process of the file is there at the lookup and when its text is made. -/
def Present (inum : BitVec 32) (c : Call) : Prop :=
  ∀ pid idx, nodeOf inum PROCFS = .procFile pid idx →
    (getProcByPid c.table pid).isSome = true ∧ ∃ p, c.slot = some p ∧ Alive pid p

/-- The characters are from the text. -/
def Inside (text : String) (bytes : List Char) : Prop :=
  ∃ i j, i + j ≤ (rendered text).length ∧ bytes = ((rendered text).drop i).take j

/-- The reads are what they should be. -/
structure ReadsText (inum : BitVec 32) (cs : List Call) (os : List Outcome) : Prop where
  /-- No read follows a process that is not there. -/
  follows : ∀ pid idx, nodeOf inum PROCFS = .procFile pid idx → ∀ o ∈ os,
    (∃ p, o.source = some p ∧ Alive pid p) ∨ o.source = none ∧ (o.ret = -1 ∨ o.ret = 0)
  /-- Every character copied out is one of the text. -/
  inside : List.Forall₂ (fun (c : Call) (o : Outcome) =>
    o.bytes = [] ∨ ∃ t, text inum c = some t ∧ Inside t o.bytes) cs os
  /-- While the text stays the same, the chunks make it up. -/
  chunks : ∀ t, (∀ c ∈ cs, text inum c = some t ∧ c.copyout = none) →
    os.flatMap Outcome.bytes = (rendered t).take (cs.map fun c => c.n.toNat).sum ∧
    ∀ o ∈ os, o.ret = o.bytes.length

/-! ## One read -/

theorem rendered_length (text : String) : (rendered text).length = text.toList.length + 1 := by
  rw [rendered, List.length_append]
  rfl

theorem snprintf_length (sz : ℕ) (text : String) : (snprintf sz text).toList.length ≤ sz := by
  simp [snprintf]

/-- The texts of procfs are short. -/
theorem text_length {inum : BitVec 32} {c : Call} {t : String} (h : text inum c = some t) :
    (rendered t).length ≤ 101 := by
  rw [rendered_length]
  unfold text at h
  split at h
  · cases h
    have := snprintf_length 20 ("uptime: " ++ toString (BitVec.ofNat 32 c.ticks).toInt ++ " ticks\n")
    rw [writeUptime]
    omega
  · obtain ⟨p, -, rfl⟩ := Option.map_eq_some_iff.mp h
    have := snprintf_length 100 ("proc pid: " ++ toString p.pid.toInt ++ "\nstate: " ++
      stateName p.state ++ "\nheap size: " ++ toString (BitVec.ofNat 32 p.sz).toInt ++ "\n")
    rw [writeProcStatus]
    omega

/-- What `copyText` gives at an offset -/
structure Copied (t : String) (off : ℕ) (c : Call) (source : Option Proc) (o : Outcome) : Prop where
  source : o.source = source
  ok : c.copyout = none → o.bytes = ((rendered t).drop off).take c.n.toNat ∧
    o.ret = o.bytes.length
  failed : c.copyout ≠ none → o.ret ≤ 0
  inside : o.bytes = [] ∨ Inside t o.bytes

theorem copyText_copied (t : String) (off : ℕ) {c : Call} (source : Option Proc) (hn : 0 < c.n) :
    Copied t off c source (copyText t off c source) := by
  have hlen := rendered_length t
  unfold copyText
  dsimp only
  split
  · next hend =>
    have hend : (rendered t).length ≤ off := by omega
    have hnil : ((rendered t).drop off).take c.n.toNat = [] := by
      rw [List.drop_eq_nil_of_le hend, List.take_nil]
    exact ⟨rfl, fun _ => ⟨hnil.symm, rfl⟩, fun _ => le_refl _, .inl rfl⟩
  next hmore =>
  have hcut : ((rendered t).drop off).take (min c.n (1 + t.toList.length - off)).toNat =
      ((rendered t).drop off).take c.n.toNat := by
    rw [List.take_eq_take_iff, List.length_drop]
    omega
  split
  · next hc =>
    refine ⟨rfl, fun _ => ⟨hcut, ?_⟩, fun h => absurd hc h, .inr ⟨off, _, ?_, rfl⟩⟩
    · dsimp only
      rw [Int.toNat_natCast, List.length_take, List.length_drop]
      omega
    · omega
  · next k hc =>
    refine ⟨rfl, fun h => ?_, fun _ => by simp, .inr ⟨off, min k _, ?_, List.take_take⟩⟩
    · cases hc.symm.trans h
    · omega

/-- **One read of a file whose process is there.** -/
theorem fileread_eq {inum off : BitVec 32} {c : Call} (hfile : IsFile inum) (hp : Present inum c)
    (hn : 0 < c.n) (hoff : off.toNat ≤ 101) : ∃ t source o off', text inum c = some t ∧
      fileread inum off c = .ok (o, off') ∧ Copied t off.toNat c source o ∧
      (c.copyout = none → off'.toNat = off.toNat + o.bytes.length) ∧ off'.toNat ≤ 101 ∧
      ∀ pid idx, nodeOf inum PROCFS = .procFile pid idx → ∃ p, source = some p ∧ Alive pid p := by
  have hint : off.toInt = off.toNat := by
    rw [BitVec.toInt_eq_toNat_of_lt]
    omega
  have hread : ∃ t source, text inum c = some t ∧
      procfsreadFile inum off.toInt c = .ok (copyText t off.toNat c source) ∧
      ∀ pid idx, nodeOf inum PROCFS = .procFile pid idx → ∃ p, source = some p ∧ Alive pid p := by
    unfold procfsreadFile text
    rw [hint]
    rcases hfile with hnode | ⟨pid, hnode⟩
    · simp only [hnode]
      exact ⟨_, none, rfl, rfl, nofun⟩
    · obtain ⟨hsome, p, hslot, halive⟩ := hp pid 0 hnode
      obtain ⟨q, hq⟩ := Option.isSome_iff_exists.mp hsome
      simp only [hnode, hq, hslot]
      refine ⟨_, some p, rfl, rfl, ?_⟩
      rintro pid' idx heq
      cases heq
      exact ⟨p, rfl, halive⟩
  obtain ⟨t, source, htext, hproc, hsource⟩ := hread
  have hcopied := copyText_copied t off.toNat source hn
  refine ⟨t, source, _, _, htext, by rw [fileread, hproc], hcopied, ?_⟩
  generalize copyText t off.toNat c source = o at hcopied ⊢
  have hlen := text_length htext
  -- a copy that fails leaves the offset where it was
  by_cases hc : c.copyout = none
  · obtain ⟨hbytes, hret⟩ := hcopied.ok hc
    have hshort : o.bytes.length ≤ (rendered t).length - off.toNat := by
      rw [hbytes, List.length_take, List.length_drop]
      exact min_le_right _ _
    have hoff' : (if 0 < o.ret then off + BitVec.ofInt 32 o.ret else off).toNat =
        off.toNat + o.bytes.length := by
      rw [hret]
      split
      · rw [BitVec.ofInt_natCast, BitVec.toNat_add, BitVec.toNat_ofNat]
        omega
      · omega
    exact ⟨fun _ => hoff', by omega, hsource⟩
  · rw [if_neg (not_lt.mpr (hcopied.failed hc))]
    exact ⟨fun h => absurd h hc, hoff, hsource⟩

/-! ## Sequences of reads -/

/-- Reads of a file whose process is there at every one -/
theorem readAll_ok {inum : BitVec 32} (hfile : IsFile inum) {cs : List Call}
    (hpos : ∀ c ∈ cs, 0 < c.n) (hp : ∀ c ∈ cs, Present inum c) {off : BitVec 32}
    (hoff : off.toNat ≤ 101) : ∃ os, readAll inum off cs = .ok os ∧
      (∀ pid idx, nodeOf inum PROCFS = .procFile pid idx → ∀ o ∈ os,
        ∃ p, o.source = some p ∧ Alive pid p) ∧
      List.Forall₂ (fun (c : Call) (o : Outcome) =>
        o.bytes = [] ∨ ∃ t, text inum c = some t ∧ Inside t o.bytes) cs os ∧
      ∀ t, (∀ c ∈ cs, text inum c = some t ∧ c.copyout = none) →
        os.flatMap Outcome.bytes =
          ((rendered t).drop off.toNat).take (cs.map fun c => c.n.toNat).sum ∧
        ∀ o ∈ os, o.ret = o.bytes.length := by
  induction cs generalizing off with
  | nil => exact ⟨[], rfl, by simp, .nil, by simp⟩
  | cons c cs ih =>
    obtain ⟨t, source, o, off', htext, hread, hcopied, hoff', hle, hsource⟩ :=
      fileread_eq hfile (hp c List.mem_cons_self) (hpos c List.mem_cons_self) hoff
    obtain ⟨os, hos, hfollows, hinside, hchunks⟩ :=
      ih (fun c hc => hpos c (List.mem_cons_of_mem _ hc))
        (fun c hc => hp c (List.mem_cons_of_mem _ hc)) hle
    refine ⟨o :: os, by rw [readAll, hread]; simp only [hos], ?_, .cons ?_ hinside, ?_⟩
    · intro pid idx hnode
      rw [List.forall_mem_cons]
      exact ⟨hcopied.source ▸ hsource pid idx hnode, hfollows pid idx hnode⟩
    · exact hcopied.inside.imp_right fun hinside => ⟨t, htext, hinside⟩
    · intro t' hall
      obtain ⟨⟨ht', hc⟩, hrest⟩ := List.forall_mem_cons.mp hall
      cases htext.symm.trans ht'
      obtain ⟨hbytes, hret⟩ := hchunks t hrest
      obtain ⟨hchunk, hlen⟩ := hcopied.ok hc
      refine ⟨?_, List.forall_mem_cons.mpr ⟨hlen, hret⟩⟩
      rw [List.flatMap_cons, hbytes, hoff' hc, List.map_cons, List.sum_cons, List.take_add,
        List.drop_drop, hchunk]
      -- the chunk is shorter than asked for only if nothing is left
      have hdrop : (rendered t).drop (off.toNat + (((rendered t).drop off.toNat).take
          c.n.toNat).length) = (rendered t).drop (off.toNat + c.n.toNat) := by
        rw [List.length_take, List.length_drop]
        by_cases hshort : c.n.toNat ≤ (rendered t).length - off.toNat
        · rw [min_eq_left hshort]
        · rw [List.drop_eq_nil_of_le (by omega), List.drop_eq_nil_of_le (by omega)]
      rw [hdrop]

/-- A read of a file whose process is not there faults or follows another one. -/
theorem present_of_read {inum : BitVec 32} {off : ℤ} {c : Call} {o : Outcome}
    (h : procfsreadFile inum off c = .ok o)
    (hfollows : ∀ pid idx, nodeOf inum PROCFS = .procFile pid idx →
      (∃ p, o.source = some p ∧ Alive pid p) ∨ o.source = none ∧ (o.ret = -1 ∨ o.ret = 0)) :
    Present inum c := by
  intro pid idx hnode
  have hsource : ∀ t source, (copyText t off c source).source = source := fun t source => by
    unfold copyText
    dsimp only
    repeat' split
    all_goals rfl
  simp only [procfsreadFile, hnode] at h
  split at h
  · cases h
  next q hq =>
  split at h
  · cases h
  next p hslot =>
  cases h
  refine ⟨by rw [hq]; rfl, p, hslot, ?_⟩
  rcases hfollows pid idx hnode with ⟨p', hp', halive⟩ | ⟨hnone, -⟩
  · cases (hsource _ _).symm.trans hp'
    exact halive
  · cases (hsource _ _).symm.trans hnone

theorem present_of_reads {inum : BitVec 32} {cs : List Call} {off : BitVec 32}
    {os : List Outcome} (h : readAll inum off cs = .ok os)
    (hfollows : ∀ pid idx, nodeOf inum PROCFS = .procFile pid idx → ∀ o ∈ os,
      (∃ p, o.source = some p ∧ Alive pid p) ∨ o.source = none ∧ (o.ret = -1 ∨ o.ret = 0)) :
    ∀ c ∈ cs, Present inum c := by
  induction cs generalizing off os with
  | nil => simp
  | cons c cs ih =>
    rw [readAll] at h
    split at h
    · cases h
    next o off' hread =>
    split at h
    · cases h
    next os' hos =>
    cases h
    rw [fileread] at hread
    split at hread
    · cases hread
    next o' hproc =>
    cases hread
    refine List.forall_mem_cons.mpr ⟨present_of_read hproc fun pid idx hnode =>
      hfollows pid idx hnode _ List.mem_cons_self, ih hos fun pid idx hnode o ho =>
      hfollows pid idx hnode o (List.mem_cons_of_mem _ ho)⟩

/-- **Reads from the start of a file of procfs get its text, if and only if its process is
    there at every read.** -/
theorem reads_iff {inum : BitVec 32} (hfile : IsFile inum) {cs : List Call}
    (hpos : ∀ c ∈ cs, 0 < c.n) :
    (∃ os, readAll inum 0 cs = .ok os ∧ ReadsText inum cs os) ↔ ∀ c ∈ cs, Present inum c := by
  constructor
  · rintro ⟨os, hos, hreads⟩
    exact present_of_reads hos hreads.follows
  · intro hp
    obtain ⟨os, hos, hfollows, hinside, hchunks⟩ :=
      readAll_ok hfile hpos hp (show (0 : BitVec 32).toNat ≤ 101 by simp)
    refine ⟨os, hos, fun pid idx hnode o ho => .inl (hfollows pid idx hnode o ho), hinside,
      fun t ht => ?_⟩
    simpa using hchunks t ht

/-! ## A process that has exited -/

/-- The status file of process 4 -/
def statusInum : BitVec 32 := inumOf (.procFile 4 0)

theorem statusInum_node : nodeOf statusInum PROCFS = .procFile 4 0 := by decide

/-- A `read` of 512 bytes while process 4 sleeps -/
def sleepingRead : Call where
  n := 512
  table := ⟨5, [⟨1, .sleeping, 4096⟩, ⟨4, .sleeping, 8192⟩]⟩
  slot := some ⟨4, .sleeping, 8192⟩
  ticks := 10
  copyout := none

/-- The same after it has exited, and its parent has waited for it -/
def lateRead : Call := { sleepingRead with table := ⟨5, [⟨1, .sleeping, 4096⟩]⟩, slot := none }

/-- The read of a file that was opened in time goes through a null pointer. -/
theorem late_read_faults : ¬ ∀ inum, IsFile inum → ∀ cs : List Call, (∀ c ∈ cs, 0 < c.n) →
    ∃ os, readAll inum 0 cs = .ok os ∧ ReadsText inum cs os := by
  intro hall
  obtain ⟨os, hos, -⟩ := hall statusInum (.inr ⟨4, statusInum_node⟩) [lateRead] (by decide)
  have herr : readAll statusInum 0 [lateRead] = .error "kerneltrap" := rfl
  rw [herr] at hos
  cases hos

/-- Two reads of the file of a process that is there -/
theorem status_reads : ∃ os, readAll statusInum 0 [sleepingRead, sleepingRead] = .ok os ∧
    ReadsText statusInum [sleepingRead, sleepingRead] os := by
  refine (reads_iff (.inr ⟨4, statusInum_node⟩) (by decide)).mpr fun c hc => ?_
  have hc : c = sleepingRead := by simpa using hc
  subst hc
  intro pid idx hnode
  cases statusInum_node.symm.trans hnode
  exact ⟨by decide, _, rfl, by decide, by decide, by decide⟩

end Xv6.Kernel.Procfs
