import Mathlib
import Xv6.Lib.BufferProgram
import Xv6.User.Dns
import Xv6.User.DnsNames

/-!
# The Bounds of DNS Replies

When `dns_rep` stays inside of what has been received. It tests its position where a label and
where an answer begins, and nowhere else: a label, a pointer, a record and its data may stick
out.

- `wp_answerName`, `wp_answerData`: what the parts of an answer need;
- `QuestionsFit`, `AnswersFit`, `AdditionalsFit`, `Fits`: nothing that the counts of the header
  call for sticks out, up to where the code gives up;
- `inside_iff`: then and only then `dns_rep` stays inside;
- `comes_to_end`: in any case it comes to its end.
-/

namespace Xv6.User.Dns

open Xv6.Lib
open Xv6.Lib.BufferProgram

/-! ## Parts of an answer -/

/-- The field of two bytes at `i` -/
def word (b : Buffer) (i : ℕ) : ℕ := (b i).toNat * 256 + (b (i + 1)).toNat

/-- The record at `d` holds an address. -/
def IsAddress (b : Buffer) (d : ℕ) : Prop := word b d = ARECORD ∧ word b (d + 8) = 4

instance (b : Buffer) (d : ℕ) : Decidable (IsAddress b d) := inferInstanceAs (Decidable (_ ∧ _))

/-- Where `dns_rep` goes on behind the record at `d`: it knows the data of addresses and aliases only. -/
def recordEnd (b : Buffer) (d : ℕ) : ℕ :=
  d + sizeofData + if IsAddress b d then 4 else if word b d = CNAME then word b (d + 8) else 0

/-- What of the record at `d` is read: its type, of some types the length, and an address -/
def Read (b : Buffer) (d i : ℕ) : Prop :=
  d ≤ i ∧ i ≤ d + 1 ∨ (word b d = ARECORD ∨ word b d = CNAME) ∧ d + 8 ≤ i ∧ i ≤ d + 9 ∨
    IsAddress b d ∧ d + 10 ≤ i ∧ i ≤ d + 13

/-- The record at `d` does not stick out with what is read of it. -/
def RecordFits (cc : ℕ) (b : Buffer) (d : ℕ) : Prop :=
  d + 1 < cc ∧ (word b d = ARECORD ∨ word b d = CNAME → d + 9 < cc) ∧ (IsAddress b d → d + 13 < cc)

/-- The name that will be printed is a string in front of `len`. -/
def HasString (b : Buffer) (cc len : ℕ) (qname : Option ℕ) : Prop :=
  ∀ q ∈ qname, ∃ z, StringEnds b q z ∧ z < len ∧ z < cc

section Parts

variable {b b' : Buffer} {cc len next d n : ℕ} {qname : Option ℕ} {P : ℕ → Prop} {E : Exit → Prop}

/-- The bytes that are read, one by one -/
theorem forall_read_iff : (∀ i, Read b d i → P i) ↔ (P d ∧ P (d + 1)) ∧
    (word b d = ARECORD ∨ word b d = CNAME → P (d + 8) ∧ P (d + 9)) ∧
      (IsAddress b d → P (d + 10) ∧ P (d + 11) ∧ P (d + 12) ∧ P (d + 13)) := by
  constructor
  · intro h
    have htype : ∀ i, d ≤ i → i ≤ d + 1 → P i := fun i hlo hhi => h i (.inl ⟨hlo, hhi⟩)
    refine ⟨⟨htype d le_rfl (by omega), htype _ (by omega) le_rfl⟩, fun hkind => ?_, fun hip => ?_⟩
    · have hlen : ∀ i, d + 8 ≤ i → i ≤ d + 9 → P i := fun i hlo hhi => h i (.inr (.inl ⟨hkind, hlo, hhi⟩))
      exact ⟨hlen _ le_rfl (by omega), hlen _ (by omega) le_rfl⟩
    · have hdata : ∀ i, d + 10 ≤ i → i ≤ d + 13 → P i := fun i hlo hhi => h i (.inr (.inr ⟨hip, hlo, hhi⟩))
      exact ⟨hdata _ le_rfl (by omega), hdata _ (by omega) (by omega), hdata _ (by omega) (by omega),
        hdata _ (by omega) le_rfl⟩
  · rintro ⟨⟨h0, h1⟩, hlen, hdata⟩ i (⟨hlo, hhi⟩ | ⟨hkind, hlo, hhi⟩ | ⟨hip, hlo, hhi⟩)
    · obtain rfl | rfl : i = d ∨ i = d + 1 := by omega
      · exact h0
      · exact h1
    · obtain ⟨h8, h9⟩ := hlen hkind
      obtain rfl | rfl : i = d + 8 ∨ i = d + 9 := by omega
      · exact h8
      · exact h9
    · obtain ⟨h10, h11, h12, h13⟩ := hdata hip
      obtain rfl | rfl | rfl | rfl : i = d + 10 ∨ i = d + 11 ∨ i = d + 12 ∨ i = d + 13 := by omega
      · exact h10
      · exact h11
      · exact h12
      · exact h13

theorem recordFits_iff : RecordFits cc b d ↔ ∀ i, Read b d i → i < cc := by
  rw [forall_read_iff, RecordFits]
  refine and_congr (by omega) (and_congr (forall_congr' fun _ => by omega) (forall_congr' fun _ => by omega))

theorem wp_ntohs {Q : ℕ → Buffer → Prop} (i : ℕ) :
    (ntohs i).wp P Q E b ↔ P i ∧ P (i + 1) ∧ Q (word b i) b := by
  simp only [ntohs, wp_bind, wp_read, wp_pure, word]

theorem wp_answerName {Q : ℕ → Buffer → Prop}
    (hE : (¬ 63 < (b len).toNat ∧ ∀ q, ¬ NameEnds b cc len q) → E .invalidReply) :
    (answerName cc len).wp P Q E b ↔ P len ∧
      (63 < (b len).toNat → P (len + 1) ∧ Q (len + 2) b) ∧
      (¬ 63 < (b len).toNat → (∀ i, Touched b cc len i → P i) ∧
        ∀ b' next, NameLeads b cc len b' next → Q next b') := by
  simp only [answerName, wp_bind, wp_read, wp_ite, wp_pure, gt_iff_lt]
  exact and_congr_right fun _ => and_congr_right fun _ => forall_congr' fun hc =>
    wp_plainName fun hnone => hE ⟨hc, hnone⟩

/-- A string that has been received is printed. -/
theorem wp_printName {Q : Unit → Buffer → Prop} (hP : ∀ i < cc, P i) (hs : HasString b cc len qname) :
    (printName cc qname).wp P Q E b ↔ Q () b := by
  cases qname with
  | none => rw [printName, wp_pure]
  | some q =>
    obtain ⟨z, hz, -, hlt⟩ := hs q rfl
    have hle := hz.le
    simp only [printName, strlen, wp_bind, wp_pure]
    rw [wp_strlenFrom hz (by omega), and_iff_right fun i _ hi => hP i (by omega)]

/-- **The record behind the name.** -/
theorem wp_answerData {Q : ℕ × Option ℕ → Buffer → Prop} (hP : ∀ i < cc, P i)
    (hs : HasString b cc len qname) :
    (answerData cc qname d).wp P Q E b ↔ (∀ i, Read b d i → P i) ∧
      Q (recordEnd b d, if IsAddress b d then some (d + sizeofData) else none) b := by
  rw [forall_read_iff]
  simp only [answerData, wp_bind, wp_ntohs, wp_ite, wp_read, wp_pure, wp_printName hP hs, recordEnd, sizeofData,
    Nat.add_assoc, Nat.reduceAdd]
  -- the type decides what else is read
  by_cases ha : word b d = ARECORD
  · have hc : ¬ ARECORD = CNAME := by decide
    by_cases h4 : word b (d + 8) = 4
    · have hip : IsAddress b d := ⟨ha, h4⟩
      simp only [ha, h4, hip, if_true, not_true, IsEmpty.forall_iff, forall_const, true_or, and_true, and_assoc]
    · have hip : ¬ IsAddress b d := fun h => h4 h.2
      simp only [ha, h4, hip, hc, if_false, not_true, not_false_eq_true, IsEmpty.forall_iff, forall_const, true_or,
        true_and, and_true, and_assoc, Nat.add_zero]
  · have hip : ¬ IsAddress b d := fun h => ha h.1
    by_cases hc : word b d = CNAME
    · have ha : ¬ CNAME = ARECORD := by decide
      simp only [ha, hc, hip, if_true, if_false, not_true, not_false_eq_true, IsEmpty.forall_iff, forall_const,
        or_true, true_and, and_true, and_assoc]
    · simp only [ha, hc, hip, if_false, not_false_eq_true, IsEmpty.forall_iff, forall_const, or_self, true_and,
        and_true, and_assoc, Nat.add_zero]

end Parts

/-! ## Names that have been read -/

section Names

variable {b b' : Buffer} {cc len len' next d p : ℕ} {qname : Option ℕ}

/-- A name is spelled out where it is, and the code goes on behind it. -/
theorem NameLeads.before (h : NameLeads b cc p b' next) : p < next ∧ ∀ i < p, b' i = b i := by
  obtain ⟨q, z, hq, hz, rfl, rfl⟩ := h
  exact ⟨Nat.lt_succ_of_le hz.le, fun i hi => spelled_outside (.inl hi)⟩

/-- The name of a question is a string once it has been read. -/
theorem NameLeads.hasString (h : NameLeads b cc p b' next) (hnext : next ≤ len) :
    HasString b' cc len (some p) := by
  obtain ⟨q, z, hq, hz, rfl, rfl⟩ := h
  rintro _ ⟨⟩
  obtain ⟨y, hy, hle⟩ := hq.exists_stringEnds
  have hlt := hq.lt
  have := hz.unique hy
  exact ⟨z, hz, by omega, by omega⟩

theorem HasString.mono (h : HasString b cc len qname) (hle : len ≤ len') : HasString b cc len' qname := by
  intro q hq
  obtain ⟨z, hz, hlt, hcc⟩ := h q hq
  exact ⟨z, hz, hlt.trans_le hle, hcc⟩

/-- A string in front of `len` stays one while the bytes there do. -/
theorem HasString.congr (h : HasString b cc len qname) (heq : ∀ i < len, b' i = b i) :
    HasString b' cc len qname := by
  intro q hq
  obtain ⟨z, hz, hlt, hcc⟩ := h q hq
  refine ⟨z, ⟨hz.le, (heq z hlt).trans hz.zero, fun i hlo hi => ?_⟩, hlt, hcc⟩
  rw [heq i (hi.trans hlt)]
  exact hz.first i hlo hi

theorem HasString.leads (h : HasString b cc p qname) (hn : NameLeads b cc p b' next) :
    HasString b' cc next qname :=
  (h.congr hn.before.2).mono hn.before.1.le

theorem hasString_none : HasString b cc len none := fun _ hq => absurd hq (Option.not_mem_none _)

theorem le_recordEnd : d ≤ recordEnd b d := by
  rw [recordEnd]
  omega

end Names

/-! ## The loops -/

/-- `n` questions at `len` do not stick out, and what follows on them satisfies `K`. -/
def QuestionsFit (cc : ℕ) (K : Buffer → ℕ → Prop) : ℕ → Buffer → ℕ → Prop
  | 0, b, len => K b len
  | n + 1, b, len =>
    NameFits b cc len ∧ ∀ b' next, NameLeads b cc len b' next → QuestionsFit cc K n b' (next + sizeofQuestion)

/-- `n` answers at `len` do not stick out, up to one that begins behind what has been received. -/
def AnswersFit (cc : ℕ) (K : Buffer → ℕ → Prop) : ℕ → Buffer → ℕ → Prop
  | 0, b, len => K b len
  | n + 1, b, len =>
    len < cc →
      (63 < (b len).toNat →
        len + 1 < cc ∧ RecordFits cc b (len + 2) ∧ AnswersFit cc K n b (recordEnd b (len + 2))) ∧
      (¬ 63 < (b len).toNat →
        NameFits b cc len ∧
          ∀ b' next, NameLeads b cc len b' next →
            RecordFits cc b' next ∧ AnswersFit cc K n b' (recordEnd b' next))

/-- `n` additional records at `len` do not stick out, up to one that is not for EDNS. -/
def AdditionalsFit (cc : ℕ) : ℕ → Buffer → ℕ → Prop
  | 0, _, _ => True
  | n + 1, b, len =>
    len < cc ∧
      (b len = 0 → len + 2 < cc ∧
        (word b (len + 1) = 41 → len + 10 < cc ∧
          AdditionalsFit cc n b (len + 1 + sizeofData + word b (len + 1 + 8))))

/-- The header is one that `dns_rep` goes on from. -/
structure Accepted (b : Buffer) : Prop where
  reply : (b 2).toNat.testBit 7 = true
  id : word b 0 = 6828
  rcode : (b 3).toNat % 16 = 0

/-- Nothing of the reply that is received in `cc` bytes sticks out. -/
def Fits (b : Buffer) (cc : ℕ) : Prop :=
  sizeofDns ≤ cc → Accepted b →
    QuestionsFit cc (AnswersFit cc (AdditionalsFit cc (word b 10)) (word b 6)) (word b 4) b sizeofDns

section Loops

variable {b : Buffer} {cc len n : ℕ} {qname res : Option ℕ} {P : ℕ → Prop} {E : Exit → Prop}

/-- One question -/
theorem wp_questions_succ {Q : ℕ × Option ℕ → Buffer → Prop}
    (hE : (∀ q, ¬ NameEnds b cc len q) → E .invalidReply) :
    (questions cc (n + 1) len qname).wp P Q E b ↔ (∀ i, Touched b cc len i → P i) ∧
      ∀ b' next, NameLeads b cc len b' next →
        (questions cc n (next + sizeofQuestion) (some len)).wp P Q E b' := by
  rw [questions, wp_bind, wp_plainName hE]

/-- One answer -/
theorem wp_answers_succ {Q : ℕ × Option ℕ → Buffer → Prop} (hP : ∀ i < cc, P i)
    (hE : (cc ≤ len ∨ ¬ 63 < (b len).toNat ∧ ∀ q, ¬ NameEnds b cc len q) → E .invalidReply)
    (hs : HasString b cc len qname) :
    (answers cc qname (n + 1) len res).wp P Q E b ↔
      (len < cc →
        (63 < (b len).toNat → P (len + 1) ∧ (∀ i, Read b (len + 2) i → P i) ∧
          (answers cc qname n (recordEnd b (len + 2))
            ((if IsAddress b (len + 2) then some (len + 2 + sizeofData) else none) <|> res)).wp P Q E b) ∧
        (¬ 63 < (b len).toNat → (∀ i, Touched b cc len i → P i) ∧
          ∀ b' next, NameLeads b cc len b' next → (∀ i, Read b' next i → P i) ∧
            (answers cc qname n (recordEnd b' next)
              ((if IsAddress b' next then some (next + sizeofData) else none) <|> res)).wp P Q E b')) := by
  rw [answers, wp_ite, wp_giveUp, and_iff_right fun hge => hE (.inl hge), Nat.not_le]
  refine forall_congr' fun hlt => ?_
  rw [wp_bind, wp_answerName fun hnone => hE (.inr hnone), and_iff_right (hP len hlt)]
  refine and_congr (forall_congr' fun _ => and_congr_right fun _ => ?_)
    (forall_congr' fun _ => and_congr_right fun _ => forall_congr' fun b' => forall_congr' fun next =>
      forall_congr' fun hn => ?_)
  · rw [wp_bind, wp_answerData hP (hs.mono (Nat.le_add_right len 2))]
  · rw [wp_bind, wp_answerData hP (hs.leads hn)]

/-- One additional record -/
theorem wp_additionals_succ {Q : ℕ → Buffer → Prop} (hname : b len ≠ 0 → E .ednsName)
    (htype : word b (len + 1) ≠ 41 → E .ednsType) :
    (additionals (n + 1) len).wp P Q E b ↔ P len ∧
      (b len = 0 → P (len + 1) ∧ P (len + 1 + 1) ∧
        (word b (len + 1) = 41 → P (len + 1 + 8) ∧ P (len + 1 + 8 + 1) ∧
          (additionals n (len + 1 + sizeofData + word b (len + 1 + 8))).wp P Q E b)) := by
  simp only [additionals, wp_bind, wp_read, wp_ite, wp_giveUp, wp_ntohs, not_not, ne_eq]
  exact and_congr_right fun _ => (and_iff_right hname).trans
    (forall_congr' fun _ => and_congr_right fun _ => and_congr_right fun _ => and_iff_right htype)

theorem questions_inside {Q : ℕ × Option ℕ → Buffer → Prop} {K : Buffer → ℕ → Prop}
    (hK : ∀ b len qname, HasString b cc len qname → (Q (len, qname) b ↔ K b len))
    (hs : HasString b cc len qname) :
    (questions cc n len qname).wp (· < cc) Q (fun _ => True) b ↔ QuestionsFit cc K n b len := by
  induction n generalizing b len qname with
  | zero => rw [questions, wp_pure, QuestionsFit, hK _ _ _ hs]
  | succ n ih =>
    rw [wp_questions_succ fun _ => trivial, QuestionsFit, nameFits_iff]
    refine and_congr_right fun _ => forall_congr' fun b' => forall_congr' fun next => forall_congr' fun hn => ?_
    exact ih (hn.hasString (Nat.le_add_right _ _))

theorem answers_inside {Q : ℕ × Option ℕ → Buffer → Prop} {K : Buffer → ℕ → Prop}
    (hK : ∀ b len res, Q (len, res) b ↔ K b len) (hs : HasString b cc len qname) :
    (answers cc qname n len res).wp (· < cc) Q (fun _ => True) b ↔ AnswersFit cc K n b len := by
  induction n generalizing b len res with
  | zero => rw [answers, wp_pure, AnswersFit, hK]
  | succ n ih =>
    rw [wp_answers_succ (fun _ hi => hi) (fun _ => trivial) hs, AnswersFit]
    refine forall_congr' fun _ => and_congr (forall_congr' fun _ => and_congr_right fun _ => ?_)
      (forall_congr' fun _ => and_congr nameFits_iff.symm (forall_congr' fun b' => forall_congr' fun next =>
        forall_congr' fun hn => ?_))
    · exact and_congr recordFits_iff.symm (ih (hs.mono ((Nat.le_add_right _ 2).trans le_recordEnd)))
    · exact and_congr recordFits_iff.symm (ih ((hs.leads hn).mono le_recordEnd))

theorem additionals_inside :
    (additionals n len).wp (· < cc) (fun _ _ => True) (fun _ => True) b ↔ AdditionalsFit cc n b len := by
  induction n generalizing len with
  | zero => rw [additionals, wp_pure, AdditionalsFit]
  | succ n ih =>
    rw [wp_additionals_succ (fun _ => trivial) fun _ => trivial, AdditionalsFit]
    refine and_congr_right fun _ => forall_congr' fun _ => ?_
    rw [← and_assoc]
    refine and_congr (by omega) (forall_congr' fun _ => ?_)
    rw [← and_assoc]
    exact and_congr (by omega) ih

/-! ### Ends of the loops -/

theorem questions_end {Q : ℕ × Option ℕ → Buffer → Prop}
    (hQ : ∀ b len qname, HasString b cc len qname → Q (len, qname) b) (hs : HasString b cc len qname) :
    (questions cc n len qname).wp (fun _ => True) Q (· ≠ .hang) b := by
  induction n generalizing b len qname with
  | zero => exact wp_pure _ |>.mpr (hQ _ _ _ hs)
  | succ n ih =>
    rw [wp_questions_succ fun _ => (nomatch ·)]
    exact ⟨fun _ _ => trivial, fun b' next hn => ih (hn.hasString (Nat.le_add_right _ _))⟩

theorem answers_end {Q : ℕ × Option ℕ → Buffer → Prop} (hQ : ∀ b r, Q r b) (hs : HasString b cc len qname) :
    (answers cc qname n len res).wp (fun _ => True) Q (· ≠ .hang) b := by
  induction n generalizing b len res with
  | zero => exact wp_pure _ |>.mpr (hQ _ _)
  | succ n ih =>
    rw [wp_answers_succ (fun _ _ => trivial) (fun _ => (nomatch ·)) hs]
    refine fun _ => ⟨fun _ => ⟨trivial, fun _ _ => trivial, ?_⟩,
      fun _ => ⟨fun _ _ => trivial, fun b' next hn => ⟨fun _ _ => trivial, ?_⟩⟩⟩
    · exact ih (hs.mono ((Nat.le_add_right _ 2).trans le_recordEnd))
    · exact ih ((hs.leads hn).mono le_recordEnd)

theorem additionals_end {Q : ℕ → Buffer → Prop} (hQ : ∀ b len, Q len b) :
    (additionals n len).wp (fun _ => True) Q (· ≠ .hang) b := by
  induction n generalizing len with
  | zero => exact wp_pure _ |>.mpr (hQ _ _)
  | succ n ih =>
    rw [wp_additionals_succ (fun _ => (nomatch ·)) fun _ => (nomatch ·)]
    exact ⟨trivial, fun _ => ⟨trivial, trivial, fun _ => ⟨trivial, trivial, ih⟩⟩⟩

end Loops

/-! ## `dns_rep` -/

section Reply

variable {b : Buffer} {cc : ℕ} {P : ℕ → Prop} {E : Exit → Prop}

/-- What `dns_rep` does with a header that it goes on from -/
theorem wp_dnsRep {Q : ℕ → Buffer → Prop} (hP : ∀ i < cc, P i) (hcc : sizeofDns ≤ cc) (ha : Accepted b) :
    (dnsRep cc).wp P Q E b ↔
      (questions cc (word b 4) sizeofDns none).wp P (fun (len, qname) b' =>
        (answers cc qname (word b 6) len none).wp P (fun (len, res) b' =>
          (additionals (word b 10) len).wp P (fun len b' =>
            (len ≠ cc → E (.processed len)) ∧
              (len = cc → (res = none → E .noArecord) ∧ ∀ ip, res = some ip → Q ip b')) E b') E b') E b := by
  have hheader : ∀ i < 12, P i := fun i hi => hP i (hi.trans_le hcc)
  rw [dnsRep, if_neg (Nat.not_lt.mpr hcc)]
  simp only [wp_bind, wp_read, wp_ntohs, wp_ite, wp_giveUp, ha.reply, ha.id, ha.rcode, hheader, Nat.reduceLT,
    Nat.reduceAdd, Bool.true_eq_false, ne_eq, not_true, not_false_eq_true, IsEmpty.forall_iff, forall_const,
    true_and, not_not]
  refine wp_congr fun r b1 => wp_congr fun r b2 => wp_congr fun len b3 => and_congr_right fun _ =>
    forall_congr' fun _ => ?_
  obtain ⟨len', res⟩ := r
  cases res with
  | none => simp
  | some ip => simp

/-- From any other header it gives up. -/
theorem wp_dnsRep_refused {Q : ℕ → Buffer → Prop} (hP : ∀ i < cc, P i) (hE : ∀ e, e ≠ .hang → E e)
    (hb : sizeofDns ≤ cc → ¬ Accepted b) : (dnsRep cc).wp P Q E b := by
  rw [dnsRep, wp_ite, wp_giveUp]
  refine ⟨fun _ => hE _ (by decide), fun hcc => ?_⟩
  have hcc := Nat.not_lt.mp hcc
  have hheader : ∀ i < 12, P i := fun i hi => hP i (hi.trans_le hcc)
  simp only [wp_bind, wp_read, wp_ntohs, wp_ite, wp_giveUp, hheader, Nat.reduceLT, Nat.reduceAdd, true_and]
  refine ⟨fun _ => hE _ (by decide), fun hqr => ⟨fun _ => hE _ (by decide), fun hid =>
    ⟨fun _ => hE _ (by decide), fun hrcode => ?_⟩⟩⟩
  exact absurd ⟨by simpa using hqr, not_not.mp hid, not_not.mp hrcode⟩ (hb hcc)

/-- **`dns_rep` stays inside of what has been received just where nothing sticks out.** -/
theorem inside_iff : (dnsRep cc).wp (· < cc) (fun _ _ => True) (fun _ => True) b ↔ Fits b cc := by
  by_cases hb : sizeofDns ≤ cc ∧ Accepted b
  · rw [wp_dnsRep (fun _ hi => hi) hb.1 hb.2, Fits, forall_prop_of_true hb.1, forall_prop_of_true hb.2]
    refine questions_inside (fun b' len qname hs => answers_inside (fun b' len res => ?_) hs) hasString_none
    simp only [implies_true, and_self]
    exact additionals_inside
  · have hb : sizeofDns ≤ cc → ¬ Accepted b := fun hcc ha => hb ⟨hcc, ha⟩
    exact iff_of_true (wp_dnsRep_refused (fun _ hi => hi) (fun _ _ => trivial) hb)
      fun hcc ha => absurd ha (hb hcc)

/-- **`dns_rep` comes to its end**, whatever it has received: behind a name that it has gone through there is
    a zero byte for `strlen` to find. -/
theorem comes_to_end : (dnsRep cc).wp (fun _ => True) (fun _ _ => True) (· ≠ .hang) b := by
  by_cases hb : sizeofDns ≤ cc ∧ Accepted b
  · rw [wp_dnsRep (fun _ _ => trivial) hb.1 hb.2]
    refine questions_end (fun b' len qname hs => answers_end (fun b' r => additionals_end fun b' len => ?_) hs)
      hasString_none
    exact ⟨fun _ => (nomatch ·), fun _ => ⟨fun _ => (nomatch ·), fun _ _ => trivial⟩⟩
  · exact wp_dnsRep_refused (fun _ _ => trivial) (fun _ he => he) fun hcc ha => hb ⟨hcc, ha⟩

end Reply

end Xv6.User.Dns
