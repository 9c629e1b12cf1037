import Mathlib
import Xv6.Lib.BufferProgram
import Xv6.User.Dns
import Xv6.User.DnsNames
import Xv6.User.DnsBounds
import Xv6.User.DnsMessages

/-!
# Replies that `dns_rep` Takes

`dns_rep` reads a response that is `Simple` as what it is: each of its loops goes on at the end of
the part that it has read, and the address of the last A record is what is left.

- `questions_taken`, `answers_taken`, `additionals_taken`: one lemma for each loop;
- `response_taken`: a whole response;
- `dns_reply_in_bounds`: when `dns_rep` stays inside of what it has received, and what it takes.

An AAAA record in front of the A record is enough for a reply that is not taken
(`dns_reply_out_of_bounds`): what follows on the header of the record is read as the next answer.
-/

namespace Xv6.User.Dns

open Xv6.Lib
open Xv6.Lib.BufferProgram

section Loops

variable {b b' : Buffer} {cc p next len : ℕ} {qname res : Option ℕ} {labels : List Label} {E : Exit → Prop}

/-- Behind a name without zero bytes the code goes on at its end, and nothing else has changed. -/
theorem NameLeads.of_holds (hn : NameLeads b cc p b' next) (h : Holds b p (Name.plain labels).wire)
    (hcc : p + (Name.plain labels).wire.length ≤ cc) (hz : (Name.plain labels).NoZero) :
    next = p + (Name.plain labels).wire.length ∧ ∀ i, i < p ∨ next ≤ i → b' i = b i := by
  obtain ⟨q, hends, hstring, hq⟩ := name_of_holds h hcc hz
  obtain ⟨q', z, hends', hstring', rfl, rfl⟩ := hn
  obtain rfl := hends.unique hends'
  obtain rfl := hstring.unique hstring'
  exact ⟨hq, fun i hi => spelled_outside (hi.imp_right fun hi => by omega)⟩

theorem questions_taken {qs : List Question} {Q : ℕ × Option ℕ → Buffer → Prop}
    (h : Holds b len (qs.flatMap Question.wire)) (hcc : len + (qs.flatMap Question.wire).length ≤ cc)
    (hqs : ∀ q ∈ qs, (∃ labels, q.name = .plain labels) ∧ q.name.NoZero) (hs : HasString b cc len qname)
    (hQ : ∀ b' qname, (∀ i, len + (qs.flatMap Question.wire).length ≤ i → b' i = b i) →
      HasString b' cc (len + (qs.flatMap Question.wire).length) qname →
      Q (len + (qs.flatMap Question.wire).length, qname) b') :
    (questions cc qs.length len qname).wp (· < cc) Q E b := by
  induction qs generalizing b len qname with
  | nil =>
    rw [List.length_nil, questions, wp_pure]
    exact hQ b qname (fun _ _ => rfl) hs
  | cons q qs ih =>
    obtain ⟨⟨labels, hname⟩, hz⟩ := hqs q List.mem_cons_self
    rw [hname] at hz
    have hlen : q.wire.length = (Name.plain labels).wire.length + sizeofQuestion := by
      simp [Question.wire, hname, sizeofQuestion]
    simp only [List.flatMap_cons, List.length_append, holds_append, hlen] at h hcc hQ
    obtain ⟨hfirst, hrest⟩ := h
    rw [Question.wire, holds_append, hname] at hfirst
    have hin : len + (Name.plain labels).wire.length ≤ cc := by omega
    obtain ⟨_, hends, -, -⟩ := name_of_holds hfirst.1 hin hz
    rw [List.length_cons, wp_questions_succ fun hnone => absurd hends (hnone _)]
    refine ⟨fun i hi => hends.touched_lt hi, fun b' next hn => ?_⟩
    have hstring : HasString b' cc (next + sizeofQuestion) (some len) := hn.hasString (Nat.le_add_right _ _)
    obtain ⟨rfl, hframe⟩ := hn.of_holds hfirst.1 hin hz
    have hstep : len + (Name.plain labels).wire.length + sizeofQuestion =
        len + ((Name.plain labels).wire.length + sizeofQuestion) := Nat.add_assoc _ _ _
    rw [hstep] at hstring ⊢
    -- the rest of the questions is as it was
    refine ih (hrest.congr fun i hlo _ => hframe i (.inr (by omega))) (by omega)
      (fun q hq => hqs q (List.mem_cons_of_mem _ hq)) hstring fun b'' qname hframe' hs' => ?_
    rw [Nat.add_assoc] at hs' hframe' ⊢
    exact hQ b'' qname (fun i hi => (hframe' i hi).trans (hframe i (.inr (by omega)))) hs'

/-- The record behind a name is read as it is. -/
theorem record_taken {a : Record} {d n : ℕ} {Q : ℕ × Option ℕ → Buffer → Prop} (h : Holds b d a.body)
    (hcc : d + a.body.length ≤ cc) (ha : a.IsAddress ∨ a.type.toNat = CNAME ∨ a.data = [])
    (hrest : ∀ res', (a.IsAddress → res' = some (d + sizeofData) ∧ Holds b (d + sizeofData) a.data) →
      (¬ a.IsAddress → res' = res) → (answers cc qname n (d + a.body.length) res').wp (· < cc) Q E b) :
    (∀ i, Read b d i → i < cc) ∧
      (answers cc qname n (recordEnd b d)
        ((if IsAddress b d then some (d + sizeofData) else none) <|> res)).wp (· < cc) Q E b := by
  refine ⟨recordFits_iff.mp (h.recordFits hcc), ?_⟩
  rw [h.recordEnd ha]
  refine hrest _ (fun hip => ?_) (fun hip => ?_)
  · rw [if_pos (h.isAddress.mpr hip)]
    exact ⟨rfl, h.record.2.2⟩
  · rw [if_neg (mt h.isAddress.mp hip)]
    rfl

/-- One answer is read as it is. -/
theorem answer_taken {a : Record} {n : ℕ} {Q : ℕ × Option ℕ → Buffer → Prop} (h : Holds b len a.wire)
    (hcc : len + a.wire.length ≤ cc) (hz : a.name.NoZero)
    (ha : a.IsAddress ∨ a.type.toNat = CNAME ∨ a.data = []) (hs : HasString b cc len qname)
    (hrest : ∀ b' res', (∀ i, i < len ∨ len + a.wire.length ≤ i → b' i = b i) →
      HasString b' cc (len + a.wire.length) qname →
      (a.IsAddress → res' = some (len + a.name.wire.length + sizeofData) ∧
        Holds b' (len + a.name.wire.length + sizeofData) a.data) →
      (¬ a.IsAddress → res' = res) →
      (answers cc qname n (len + a.wire.length) res').wp (· < cc) Q E b') :
    (answers cc qname (n + 1) len res).wp (· < cc) Q E b := by
  simp only [Record.wire, holds_append, List.length_append, ← Nat.add_assoc] at h hcc hrest
  obtain ⟨hname, hbody⟩ := h
  have hlt : len < cc := by
    rw [a.length_body, sizeofData] at hcc
    omega
  -- A pointer takes two bytes, and moves nothing; a plain name is decoded in its place.
  cases hn : a.name with
  | pointer offset =>
    rw [hn] at hname hbody hcc hrest
    have hfirst := compressed hname
    rw [wp_answers_succ (fun _ hi => hi) (fun hnone => by omega) hs]
    refine fun _ => ⟨fun _ => ⟨?_, ?_⟩, fun hno => absurd hfirst hno⟩
    · rw [a.length_body, sizeofData, show (Name.pointer offset).wire.length = 2 from rfl] at hcc
      omega
    -- The fixed part of the record and its data follow.
    · exact record_taken hbody hcc ha fun res' =>
        hrest b res' (fun _ _ => rfl) (hs.mono ((Nat.le_add_right _ _).trans (Nat.le_add_right _ _)))
  | plain labels =>
    rw [hn] at hname hbody hcc hrest hz
    have hin : len + (Name.plain labels).wire.length ≤ cc := by omega
    obtain ⟨_, hends, -, -⟩ := name_of_holds hname hin hz
    rw [wp_answers_succ (fun _ hi => hi) (fun hnone => absurd hends ((hnone.resolve_left (by omega)).2 _)) hs]
    refine fun _ => ⟨fun hyes => absurd hyes (not_compressed hname), fun _ =>
      ⟨fun i hi => hends.touched_lt hi, fun b' next hlead => ?_⟩⟩
    -- Decoding the name touches none of the bytes behind it.
    have hs' := hs.leads hlead
    obtain ⟨rfl, hframe⟩ := hlead.of_holds hname hin hz
    exact record_taken (hbody.congr fun i hlo _ => hframe i (.inr hlo)) hcc ha fun res' =>
      hrest b' res' (fun i hi => hframe i (hi.imp_right fun hi => by omega)) (hs'.mono (Nat.le_add_right _ _))

theorem answers_taken {as : List Record} {Q : ℕ × Option ℕ → Buffer → Prop}
    (h : Holds b len (as.flatMap Record.wire)) (hcc : len + (as.flatMap Record.wire).length ≤ cc)
    (has : ∀ a ∈ as, a.name.NoZero ∧ (a.IsAddress ∨ a.type.toNat = CNAME ∨ a.data = []))
    (hs : HasString b cc len qname)
    (hQ : ∀ b' res', (∀ i, i < len ∨ len + (as.flatMap Record.wire).length ≤ i → b' i = b i) →
      ((∃ ip, res' = some ip ∧ AddressAt b' len as ip) ∨ res' = res ∧ ∀ a ∈ as, ¬ a.IsAddress) →
      Q (len + (as.flatMap Record.wire).length, res') b') :
    (answers cc qname as.length len res).wp (· < cc) Q E b := by
  induction as generalizing b len res with
  | nil =>
    rw [List.length_nil, answers, wp_pure]
    exact hQ b res (fun _ _ => rfl) (.inr ⟨rfl, fun _ ha => absurd ha List.not_mem_nil⟩)
  | cons a as ih =>
    simp only [List.flatMap_cons, List.length_append, holds_append, ← Nat.add_assoc] at h hcc hQ
    obtain ⟨hfirst, hrest⟩ := h
    obtain ⟨hz, ha⟩ := has a List.mem_cons_self
    rw [List.length_cons]
    refine answer_taken hfirst (by omega) hz ha hs fun b1 res1 hframe1 hs1 hyes hno => ?_
    refine ih (hrest.congr fun i hlo _ => hframe1 i (.inr hlo)) hcc (fun a ha => has a (List.mem_cons_of_mem _ ha))
      hs1 fun b2 res2 hframe2 hres => ?_
    refine hQ b2 res2 (fun i hi => (hframe2 i (by omega)).trans (hframe1 i (by omega))) ?_
    rcases hres with ⟨ip, hip, hat⟩ | ⟨rfl, hnone⟩
    · exact .inl ⟨ip, hip, hat.cons⟩
    -- without an address behind it, this answer decides
    by_cases h4 : a.IsAddress
    · obtain ⟨rfl, hdata⟩ := hyes h4
      refine .inl ⟨_, rfl, .head h4 (hdata.congr fun i _ hi => hframe2 i (.inl ?_))⟩
      rw [Record.wire, List.length_append, a.length_body]
      omega
    · refine .inr ⟨hno h4, fun x hx => ?_⟩
      rcases List.mem_cons.mp hx with rfl | hx
      · exact h4
      · exact hnone x hx

theorem additionals_taken {as : List Record} {Q : ℕ → Buffer → Prop} (h : Holds b len (as.flatMap Record.wire))
    (hcc : len + (as.flatMap Record.wire).length ≤ cc) (has : ∀ a ∈ as, a.IsOpt)
    (hQ : Q (len + (as.flatMap Record.wire).length) b) :
    (additionals as.length len).wp (· < cc) Q E b := by
  -- Induction on the records still to be read.
  induction as generalizing len with
  | nil =>
    rw [List.length_nil, additionals, wp_pure]
    exact hQ
  | cons a as ih =>
    simp only [List.flatMap_cons, List.length_append, holds_append, ← Nat.add_assoc] at h hcc hQ
    obtain ⟨hfirst, hrest⟩ := h
    obtain ⟨hname, htype⟩ := has a List.mem_cons_self
    have hlen : a.wire.length = 1 + sizeofData + a.data.length := by
      rw [Record.wire, List.length_append, a.length_body, hname, Nat.add_assoc]
      rfl
    rw [Record.wire, holds_append, hname] at hfirst
    obtain ⟨hroot, hbody⟩ := hfirst
    obtain ⟨hword, hdlen, -⟩ := hbody.record
    replace hword : word b (len + 1) = 41 := by
      rw [htype] at hword
      exact hword
    -- The name of the record is the root, one byte.
    have hroot : b len = 0 := hroot.1
    have hin : len + 11 ≤ cc := by
      rw [hlen, sizeofData] at hcc
      omega
    rw [List.length_cons, wp_additionals_succ (fun hne => absurd hroot hne) fun hne => absurd hword hne]
    refine ⟨by omega, fun _ => ⟨by omega, by omega, fun _ => ⟨by omega, by omega, ?_⟩⟩⟩
    -- The data of the record lead to the next one.
    have hnext : len + 1 + sizeofData + word b (len + 1 + 8) = len + a.wire.length := by
      rw [hlen]
      have : word b (len + 1 + 8) = a.data.length := hdlen
      omega
    rw [hnext]
    exact ih hrest hcc (fun a ha => has a (List.mem_cons_of_mem _ ha)) hQ

end Loops

/-! ## Responses -/

section Responses

variable {b : Buffer} {cc : ℕ} {r : Response}

theorem Response.length_header (r : Response) : r.header.length = sizeofDns := rfl

/-- The header is one that `dns_rep` goes on from, with the counts of the response. -/
theorem Holds.header (h : Holds b 0 r.header) :
    Accepted b ∧ Dns.word b 4 = r.questions.length ∧ Dns.word b 6 = r.answers.length ∧
      Dns.word b 10 = r.additionals.length := by
  simp only [Response.header, holds_append, length_wire16, List.length_cons, List.length_nil, Nat.reduceAdd] at h
  obtain ⟨hid, hbits, hqd, han, -, har⟩ := h
  have hreply : (b 2).toNat.testBit 7 = true := by
    rw [hbits.1]
    exact r.reply
  have hrcode : (b 3).toNat % 16 = 0 := by
    rw [hbits.2.1]
    exact r.rcode
  exact ⟨⟨hreply, hid.word (by decide), hrcode⟩, hqd.word r.qdcount, han.word r.ancount, har.word r.arcount⟩

/-- **`dns_rep` takes a simple response** as a whole, and returns where the data of an A record is. -/
theorem response_taken (h : Holds b 0 r.wire) (hcc : cc = r.wire.length) (hr : r.Simple)
    (ha : ∃ a ∈ r.answers, a.IsAddress) :
    (dnsRep cc).wp (· < cc) (fun ip b' => AddressAt b' r.answersAt r.answers ip) (fun _ => False) b := by
  simp only [Response.wire, holds_append, List.length_append, r.length_header, Nat.zero_add, ← Nat.add_assoc] at h hcc
  obtain ⟨hheader, hqs, has, hads⟩ := h
  obtain ⟨haccepted, hqd, han, har⟩ := hheader.header
  rw [wp_dnsRep (fun _ hi => hi) (by omega) haccepted, hqd]
  refine questions_taken hqs (by omega) hr.questions hasString_none fun b1 qname hframe1 hs1 => ?_
  rw [han]
  refine answers_taken (has.congr fun i hlo _ => hframe1 i hlo) (by omega) hr.answers hs1
    fun b2 res hframe2 hres => ?_
  rw [har]
  refine additionals_taken (hads.congr fun i hlo _ => ?_) (by omega) r.opt ?_
  · exact (hframe2 i (.inr hlo)).trans (hframe1 i (by omega))
  obtain ⟨ip, rfl, hat⟩ : ∃ ip, res = some ip ∧ AddressAt b2 r.answersAt r.answers ip := by
    refine hres.resolve_right fun hnone => ?_
    obtain ⟨a, hmem, h4⟩ := ha
    exact hnone.2 a hmem h4
  refine ⟨fun hne => absurd hcc.symm hne, fun _ => ⟨fun hnone => (nomatch hnone), fun ip' hip => ?_⟩⟩
  obtain rfl := Option.some.inj hip
  exact hat

end Responses

/-- **`dns_rep` stays inside of what has been received just where nothing of it sticks out**, and of a simple
    response that has an A record it returns where the data of one is, with all bytes used up. -/
theorem dns_reply_in_bounds (b : Buffer) (cc : ℕ) :
    (((∀ i ∈ (dnsRep cc b).2.2, i < cc) ∧ (dnsRep cc b).1 ≠ .error .hang) ↔ Fits b cc) ∧
      ∀ r : Response, Holds b 0 r.wire → cc = r.wire.length → (∃ a ∈ r.answers, a.IsAddress) → r.Simple →
        ∃ ip, (dnsRep cc b).1 = .ok ip ∧ AddressAt (dnsRep cc b).2.1 r.answersAt r.answers ip := by
  have hends : (dnsRep cc b).1 ≠ .error .hang := by
    intro hhang
    have h : (dnsRep cc).wp (fun _ => True) (fun _ _ => True) (· ≠ .hang) b := comes_to_end
    rw [wp, hhang] at h
    exact h.2 rfl
  refine ⟨?_, fun r h hcc ha hr => ?_⟩
  · rw [and_iff_left hends, ← inside_iff, wp]
    refine (and_iff_left ?_).symm
    split <;> trivial
  · exact (of_wp (response_taken h hcc hr ha)).2

/-- The bytes at the begin of a buffer that is zero otherwise -/
def bufferOf (l : List UInt8) : Buffer := fun i => l.getD i 0

theorem holds_bufferOf (l : List UInt8) : Holds (bufferOf l) 0 l := by
  suffices h : ∀ (l before : List UInt8), Holds (bufferOf (before ++ l)) before.length l from h l []
  intro l
  induction l with
  | nil => exact fun _ => trivial
  | cons x l ih =>
    intro before
    refine ⟨by simp [bufferOf], ?_⟩
    have hrest := ih (before ++ [x])
    rwa [List.append_assoc, List.length_append] at hrest

/-- The question that replies begin with below: `a.`, type A, class IN -/
def questionA : Question := ⟨.plain [⟨[97], by decide, by decide⟩], 1, 1⟩

/-- An A record for the name in the question -/
def recordA : Record := ⟨.pointer 12, 1, 1, 60, [10, 0, 2, 2], by decide⟩

/-- An AAAA record for it -/
def recordAAAA : Record := ⟨.pointer 12, 28, 1, 60, [254, 192, 0, 0, 0, 0, 0, 0, 0, 0, 0, 0, 0, 0, 0, 2], by decide⟩

/-- The OPT record of a server with EDNS -/
def recordOpt : Record := ⟨.plain [], 41, 512, 0, [], by decide⟩

/-- A response with these answers -/
def responseOf (answers : List Record) (h : answers.length < 65536) : Response where
  flags := 129
  codes := 128
  reply := by decide
  rcode := by decide
  questions := [questionA]
  answers := answers
  additionals := [recordOpt]
  opt a ha := by
    obtain rfl := List.mem_singleton.mp ha
    exact ⟨rfl, rfl⟩
  qdcount := by decide
  ancount := h
  arcount := by decide

theorem dns_reply_in_bounds_address :
    ∃ ip, (dnsRep 46 (bufferOf (responseOf [recordA] (by decide)).wire)).1 = .ok ip ∧
      AddressAt (dnsRep 46 (bufferOf (responseOf [recordA] (by decide)).wire)).2.1
        (responseOf [recordA] (by decide)).answersAt [recordA] ip := by
  refine (dns_reply_in_bounds _ 46).2 (responseOf [recordA] (by decide)) (holds_bufferOf _) (by decide)
    ⟨recordA, List.mem_singleton_self _, by decide, rfl⟩ ⟨fun q hq => ?_, fun a ha => ?_⟩
  · obtain rfl := List.mem_singleton.mp hq
    exact ⟨⟨_, rfl⟩, fun l hl => by obtain rfl := List.mem_singleton.mp hl; decide⟩
  · obtain rfl := List.mem_singleton.mp ha
    exact ⟨trivial, .inl ⟨by decide, rfl⟩⟩

/-- A label that sticks out of 13 bytes is moved from behind them; and an AAAA record in front of the A record
    is not taken, as its data is read as the next answer. -/
theorem dns_reply_out_of_bounds :
    (∃ i ∈ (dnsRep 13 (bufferOf [26, 172, 128, 0, 0, 1, 0, 0, 0, 0, 0, 0, 5])).2.2, ¬ i < 13) ∧
      Holds (bufferOf (responseOf [recordAAAA, recordA] (by decide)).wire) 0
        (responseOf [recordAAAA, recordA] (by decide)).wire ∧
      (responseOf [recordAAAA, recordA] (by decide)).wire.length = 74 ∧ recordA.IsAddress ∧
      (dnsRep 74 (bufferOf (responseOf [recordAAAA, recordA] (by decide)).wire)).1 = .error .ednsType := by
  refine ⟨?_, holds_bufferOf _, by decide, ⟨by decide, rfl⟩, ?_⟩
  · decide +kernel
  · decide +kernel

end Xv6.User.Dns
