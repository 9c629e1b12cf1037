import Mathlib
import Xv6.User.Dns
import Xv6.User.DnsNames
import Xv6.User.DnsBounds

/-!
# DNS Responses

The format of a response without authority records, and what `dns_rep` needs of one to read each
part of it as that part.

- `Name`, `Question`, `Record`, `Response`, each with its `wire` form;
- `Holds`: bytes that stand in the buffer;
- `NameEnds.spelled_string`: a name without zero bytes is one string once it is spelled out;
- `Response.Simple`: what `dns_rep` is made for.

Limits on the length of a name, and where a pointer may lead to, do not matter here.
-/

namespace Xv6.User.Dns

/-! ## Format -/

/-- A field of two bytes -/
def wire16 (n : ℕ) : List UInt8 := [UInt8.ofNat (n / 256), UInt8.ofNat n]

/-- A label: between 1 and 63 bytes -/
structure Label where
  bytes : List UInt8
  pos : 0 < bytes.length
  le : bytes.length ≤ 63

def Label.wire (l : Label) : List UInt8 := UInt8.ofNat l.bytes.length :: l.bytes

/-- A name in labels, or compressed by a pointer that it begins with -/
inductive Name where
  | plain (labels : List Label)
  | pointer (offset : Fin 16384)

def Name.wire : Name → List UInt8
  | .plain labels => labels.flatMap Label.wire ++ [0]
  | .pointer offset => wire16 (192 * 256 + offset)

structure Question where
  name : Name
  qtype : UInt16
  qclass : UInt16

def Question.wire (q : Question) : List UInt8 :=
  q.name.wire ++ (wire16 q.qtype.toNat ++ wire16 q.qclass.toNat)

/-- A resource record -/
structure Record where
  name : Name
  type : UInt16
  cls : UInt16
  ttl : UInt32
  data : List UInt8
  short : data.length < 65536

/-- The record behind its name -/
def Record.body (r : Record) : List UInt8 :=
  wire16 r.type.toNat ++ (wire16 r.cls.toNat ++ (wire16 (r.ttl.toNat / 65536) ++ (wire16 (r.ttl.toNat % 65536) ++
    (wire16 r.data.length ++ r.data))))

def Record.wire (r : Record) : List UInt8 := r.name.wire ++ r.body

/-- The record is an A record with 4 data bytes. -/
def Record.IsAddress (r : Record) : Prop := r.type.toNat = ARECORD ∧ r.data.length = 4

/-- An OPT record of EDNS, whose name is the root -/
def Record.IsOpt (r : Record) : Prop := r.name = .plain [] ∧ r.type = 41

/-- A response to the request of `dns_req`, without errors and without authority records -/
structure Response where
  flags : UInt8
  codes : UInt8
  reply : flags.toNat.testBit 7 = true
  rcode : codes.toNat % 16 = 0
  questions : List Question
  answers : List Record
  additionals : List Record
  opt : ∀ a ∈ additionals, a.IsOpt
  qdcount : questions.length < 65536
  ancount : answers.length < 65536
  arcount : additionals.length < 65536

def Response.header (r : Response) : List UInt8 :=
  wire16 6828 ++ ([r.flags, r.codes] ++ (wire16 r.questions.length ++ (wire16 r.answers.length ++ (wire16 0 ++
    wire16 r.additionals.length))))

def Response.wire (r : Response) : List UInt8 :=
  r.header ++ (r.questions.flatMap Question.wire ++ (r.answers.flatMap Record.wire ++
    r.additionals.flatMap Record.wire))

/-- Where the answers begin -/
def Response.answersAt (r : Response) : ℕ := sizeofDns + (r.questions.flatMap Question.wire).length

/-! ## What `dns_rep` is made for -/

/-- No label of the name has a zero byte. -/
def Name.NoZero : Name → Prop
  | .plain labels => ∀ l ∈ labels, 0 ∉ l.bytes
  | .pointer _ => True

/-- Names of questions are not compressed, and the data of an answer is that of an address or of an alias,
    if there is any. -/
structure Response.Simple (r : Response) : Prop where
  questions : ∀ q ∈ r.questions, (∃ labels, q.name = .plain labels) ∧ q.name.NoZero
  answers : ∀ a ∈ r.answers, a.name.NoZero ∧ (a.IsAddress ∨ a.type.toNat = CNAME ∨ a.data = [])

/-! ## Bytes in the buffer -/

/-- The bytes stand in the buffer from `s` on. -/
def Holds (b : Buffer) : ℕ → List UInt8 → Prop
  | _, [] => True
  | s, x :: l => b s = x ∧ Holds b (s + 1) l

/-- The data of an address in these answers, which begin at `s`, stands at `ip`. -/
def AddressAt (b : Buffer) (s : ℕ) (answers : List Record) (ip : ℕ) : Prop :=
  ∃ before a after, answers = before ++ a :: after ∧ a.IsAddress ∧
    ip = s + (before.flatMap Record.wire).length + a.name.wire.length + sizeofData ∧ Holds b ip a.data

section Bytes

variable {b b' : Buffer} {s n p q q' i : ℕ} {l l' : List UInt8} {labels : List Label} {r : Record}

theorem holds_append : Holds b s (l ++ l') ↔ Holds b s l ∧ Holds b (s + l.length) l' := by
  induction l generalizing s with
  | nil => simp [Holds]
  | cons x l ih =>
    rw [List.cons_append, Holds, Holds, ih, and_assoc, List.length_cons,
      show s + 1 + l.length = s + (l.length + 1) by omega]

theorem holds_iff : Holds b s l ↔ ∀ i (hi : i < l.length), b (s + i) = l[i] := by
  induction l generalizing s with
  | nil => exact iff_of_true trivial fun i hi => absurd hi (Nat.not_lt_zero i)
  | cons x l ih =>
    rw [Holds, ih]
    constructor
    · rintro ⟨hhead, htail⟩ i hi
      cases i with
      | zero => exact hhead
      | succ i =>
        rw [List.getElem_cons_succ, ← htail i (by simpa using hi), show s + 1 + i = s + (i + 1) by omega]
    · refine fun h => ⟨h 0 (Nat.succ_pos _), fun i hi => ?_⟩
      rw [show s + 1 + i = s + (i + 1) by omega, h (i + 1) (Nat.succ_lt_succ hi), List.getElem_cons_succ]

theorem Holds.congr (h : Holds b s l) (heq : ∀ i, s ≤ i → i < s + l.length → b' i = b i) : Holds b' s l := by
  induction l generalizing s with
  | nil => trivial
  | cons x l ih =>
    rw [List.length_cons] at heq
    exact ⟨(heq s le_rfl (by omega)).trans h.1, ih h.2 fun i hlo hhi => heq i (by omega) (by omega)⟩

@[simp] theorem length_wire16 : (wire16 n).length = 2 := rfl

/-- A field is read as it was written. -/
theorem Holds.word (h : Holds b s (wire16 n)) (hn : n < 65536) : word b s = n := by
  obtain ⟨hhi, hlo, -⟩ := h
  rw [Dns.word, hhi, hlo, UInt8.toNat_ofNat', UInt8.toNat_ofNat']
  omega

theorem Record.length_body : r.body.length = sizeofData + r.data.length := by
  simp only [Record.body, List.length_append, length_wire16, sizeofData]
  omega

/-- The record behind its name, as `dns_rep` reads it -/
theorem Holds.record (h : Holds b s r.body) :
    Dns.word b s = r.type.toNat ∧ Dns.word b (s + 8) = r.data.length ∧ Holds b (s + sizeofData) r.data := by
  simp only [Record.body, holds_append, length_wire16, Nat.add_assoc, Nat.reduceAdd] at h
  obtain ⟨htype, -, -, -, hlen, hdata⟩ := h
  exact ⟨htype.word r.type.toNat_lt, hlen.word r.short, hdata⟩

/-! ### Records in the buffer -/

theorem Holds.isAddress (h : Holds b s r.body) : IsAddress b s ↔ r.IsAddress := by
  obtain ⟨htype, hlen, -⟩ := h.record
  rw [Dns.IsAddress, Record.IsAddress, htype, hlen]

/-- A record that has no other data than `dns_rep` knows ends where it goes on. -/
theorem Holds.recordEnd (h : Holds b s r.body) (hr : r.IsAddress ∨ r.type.toNat = CNAME ∨ r.data = []) :
    recordEnd b s = s + r.body.length := by
  obtain ⟨htype, hlen, -⟩ := h.record
  rw [Dns.recordEnd, r.length_body, Nat.add_assoc, htype, hlen]
  congr 2
  by_cases hip : r.IsAddress
  · rw [if_pos (h.isAddress.mpr hip), hip.2]
  · rw [if_neg (mt h.isAddress.mp hip)]
    split
    · rfl
    · rename_i hother
      rw [(hr.resolve_left hip).resolve_left hother, List.length_nil]

/-- A record that has been received as a whole does not stick out. -/
theorem Holds.recordFits {cc : ℕ} (h : Holds b s r.body) (hcc : s + r.body.length ≤ cc) : RecordFits cc b s := by
  rw [r.length_body, sizeofData] at hcc
  refine ⟨by omega, fun _ => by omega, fun hip => ?_⟩
  have := (h.isAddress.mp hip).2
  omega

/-! ### Addresses in the buffer -/

theorem AddressAt.head {as : List Record} (hr : r.IsAddress)
    (h : Holds b (s + r.name.wire.length + sizeofData) r.data) :
    AddressAt b s (r :: as) (s + r.name.wire.length + sizeofData) :=
  ⟨[], r, as, rfl, hr, by simp, h⟩

theorem AddressAt.cons {ip : ℕ} {as : List Record} (h : AddressAt b (s + r.wire.length) as ip) :
    AddressAt b s (r :: as) ip := by
  obtain ⟨before, a, after, rfl, ha, hip, hdata⟩ := h
  refine ⟨r :: before, a, after, rfl, ha, ?_, hdata⟩
  rw [hip, List.flatMap_cons, List.length_append, Nat.add_assoc s]

/-! ### Names in the buffer -/

theorem Label.toNat_length (l : Label) : (UInt8.ofNat l.bytes.length).toNat = l.bytes.length := by
  have := l.le
  rw [UInt8.toNat_ofNat', Nat.mod_eq_of_lt (by omega)]

/-- Where labels begin is where they are written. -/
theorem labels_of_holds (h : Holds b p (labels.flatMap Label.wire)) :
    Labels b p (p + (labels.flatMap Label.wire).length) := by
  induction labels generalizing p with
  | nil => exact .nil p
  | cons l labels ih =>
    simp only [List.flatMap_cons, holds_append, Label.wire, List.length_cons, List.length_append] at h ⊢
    have hlen : (b p).toNat = l.bytes.length := by rw [h.1.1, l.toNat_length]
    refine .cons (fun hzero => ?_) ?_
    · rw [hzero] at hlen
      exact absurd hlen.symm l.pos.ne'
    · have hrest := ih h.2
      rwa [hlen, Nat.add_assoc p l.bytes.length, ← Nat.add_assoc p (l.bytes.length + 1)]

/-- A row of labels lies in front of where the name ends. -/
theorem Labels.label_le (h : Labels b p q) (hzero : b q = 0) (h' : Labels b p q') : q' + (b q').toNat ≤ q := by
  induction h with
  | nil p =>
    obtain rfl := labels_of_zero hzero h'
    simp [hzero]
  | cons hne hl ih =>
    rcases (labels_iff hne).mp h' with rfl | h'
    · have := hl.le
      omega
    · exact ih hzero h'

theorem NameEnds.unique {cc : ℕ} (h : NameEnds b cc p q) (h' : NameEnds b cc p q') : q = q' := by
  have hle := h.labels.label_le h.zero h'.labels
  have hge := h'.labels.label_le h'.zero h.labels
  omega

/-- Nothing of a name that ends before `cc` sticks out. -/
theorem NameEnds.touched_lt {cc : ℕ} (h : NameEnds b cc p q) (hi : Touched b cc p i) : i < cc := by
  obtain ⟨q', hl, -, -, hhi⟩ := hi
  have hle := h.labels.label_le h.zero hl
  have := h.lt
  omega

/-- A name in labels does not begin like a pointer. -/
theorem not_compressed (h : Holds b p (Name.plain labels).wire) : ¬ 63 < (b p).toNat := by
  cases labels with
  | nil =>
    rw [h.1]
    decide
  | cons l labels =>
    have := l.le
    rw [show b p = UInt8.ofNat l.bytes.length from h.1, l.toNat_length]
    omega

/-- A pointer does. -/
theorem compressed {offset : Fin 16384} (h : Holds b p (Name.pointer offset).wire) : 63 < (b p).toNat := by
  have := offset.isLt
  rw [h.1, UInt8.toNat_ofNat']
  omega

theorem Holds.mem (h : Holds b s l) (hlo : s ≤ i) (hhi : i < s + l.length) : b i ∈ l := by
  induction l generalizing s with
  | nil => simp at hhi; omega
  | cons x l ih =>
    rcases Nat.eq_or_lt_of_le hlo with rfl | hlt
    · exact h.1 ▸ List.mem_cons_self
    · refine List.mem_cons_of_mem _ (ih h.2 hlt ?_)
      rw [List.length_cons] at hhi
      omega

/-- Behind each byte of the labels, another label begins or a byte of a label stands. -/
theorem labels_or_ne_zero (h : Holds b p (labels.flatMap Label.wire)) (hz : ∀ l ∈ labels, 0 ∉ l.bytes)
    (hlo : p ≤ i) (hhi : i < p + (labels.flatMap Label.wire).length) : Labels b p (i + 1) ∨ b (i + 1) ≠ 0 := by
  induction labels generalizing p with
  | nil => simp at hhi; omega
  | cons l labels ih =>
    simp only [List.flatMap_cons, holds_append, Label.wire, List.length_cons, List.length_append] at h hhi
    obtain ⟨⟨hhead, hbytes⟩, hrest⟩ := h
    have hlen : (b p).toNat = l.bytes.length := by rw [hhead, l.toNat_length]
    have hne : b p ≠ 0 := by
      intro hzero
      rw [hzero] at hlen
      exact absurd hlen.symm l.pos.ne'
    by_cases hin : i < p + l.bytes.length
    · -- a byte of this label
      refine .inr fun hzero => hz l List.mem_cons_self ?_
      exact hzero ▸ hbytes.mem (by omega) (by omega)
    · rcases Nat.eq_or_lt_of_le (Nat.le_of_not_lt hin) with heq | hlt
      · refine .inl (.cons hne ?_)
        rw [hlen, heq]
        exact .nil _
      · have hstep := ih hrest (fun l hl => hz l (List.mem_cons_of_mem _ hl)) (by omega) (by omega)
        refine hstep.imp_left fun hl => .cons hne ?_
        rw [hlen]
        exact hl

/-- **A name without zero bytes is one string once it is spelled out**, as long as it was. -/
theorem name_of_holds {cc : ℕ} (h : Holds b p (Name.plain labels).wire)
    (hcc : p + (Name.plain labels).wire.length ≤ cc) (hz : (Name.plain labels).NoZero) :
    ∃ q, NameEnds b cc p q ∧ StringEnds (spelled b p q) p q ∧ q + 1 = p + (Name.plain labels).wire.length := by
  simp only [Name.wire, holds_append, List.length_append, List.length_singleton] at h hcc ⊢
  have hl := labels_of_holds h.1
  refine ⟨_, ⟨hl, by omega, h.2.1⟩, ⟨hl.le, (spelled_outside (.inr le_rfl)).trans h.2.1, fun i hlo hi => ?_⟩, by omega⟩
  rw [spelled, if_pos ⟨hlo, hi⟩]
  split
  · decide
  · rename_i hnone
    exact (labels_or_ne_zero h.1 hz hlo hi).resolve_left hnone

end Bytes

end Xv6.User.Dns
