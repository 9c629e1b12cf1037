import Mathlib
import Xv6.Lib.BufferProgram
import Xv6.User.Dns
import Xv6.User.DnsNames
import Xv6.User.DnsBounds
import Xv6.User.DnsMessages

/-!
# Host Names in DNS Requests

`encode_qname` of `user/dns.c`, and `decode_qname` as its inverse.

- `wp_encodeQname`: what `encode_qname` writes is the wire form of the labels;
- `holds_spelled`: spelled out again, they are the host name with a dot behind the last label;
- `qname_round_trip`: both together.
-/

namespace Xv6.User.Dns

open Xv6.Lib.BufferProgram

/-! ## `encode_qname` -/

/-- `*(host + i)`, where a zero byte ends the host name -/
def charAt (host : List UInt8) (i : ℕ) : UInt8 := host.getD i 0

/-- The inner loop of `encode_qname`: `n` bytes are copied from `d`. -/
def copyLabel (host : List UInt8) : ℕ → ℕ → ℕ → Prog Unit
  | 0, _, _ => pure ()
  | n + 1, d, qn => do
    write qn (charAt host d)
    copyLabel host n (d + 1) (qn + 1)

/-- A label ends at `c`. -/
def AtEnd (host : List UInt8) (adddot : Bool) (c : ℕ) : Prop :=
  charAt host c = dot ∨ c = host.length ∧ adddot = true

instance (host : List UInt8) (adddot : Bool) (c : ℕ) : Decidable (AtEnd host adddot c) :=
  inferInstanceAs (Decidable (_ ∨ _))

/-- The outer loop of `encode_qname`: so many turns from `c` on, with the label that begins at `l`. It
    returns where `qn` points behind the loop. -/
def encodeFrom (host : List UInt8) (adddot : Bool) : ℕ → ℕ → ℕ → ℕ → Prog ℕ
  | 0, _, _, qn => pure qn
  | turns + 1, c, l, qn =>
    if AtEnd host adddot c then do
      write qn (UInt8.ofNat (c - l))
      copyLabel host (c - l) l (qn + 1)
      encodeFrom host adddot turns (c + 1) (c + 1) (qn + 1 + (c - l))
    else encodeFrom host adddot turns (c + 1) l qn

/-- `encode_qname(qn, host)`, for a host name that is not empty -/
def encodeQname (host : List UInt8) (qn : ℕ) : Prog Unit := do
  let adddot := decide (charAt host (host.length - 1) ≠ dot ∧ charAt host host.length = 0)
  let qn' ← encodeFrom host adddot (host.length + 1) 0 0 qn
  write qn' 0

/-! ## Host names -/

/-- The labels, with a dot behind each -/
def dotted (labels : List Label) : List UInt8 := labels.flatMap fun l => l.bytes ++ [dot]

/-- The labels can be told apart in a string. -/
def Clean (labels : List Label) : Prop := ∀ l ∈ labels, dot ∉ l.bytes ∧ 0 ∉ l.bytes

section Hosts

variable {host before : List UInt8} {labels : List Label} {adddot : Bool} {b : Buffer} {c l n p q qn turns : ℕ}
  {P : ℕ → Prop} {E : Exit → Prop}

/-- A dot takes as much room as a length. -/
theorem length_dotted (labels : List Label) : (dotted labels).length = (labels.flatMap Label.wire).length := by
  simp [dotted, Label.wire]

/-- The bytes are copied in order. -/
theorem wp_copyLabel {Q : Unit → Buffer → Prop} : (copyLabel host n l qn).wp P Q E b ↔
    (∀ i, qn ≤ i → i < qn + n → P i) ∧
      Q () fun i => if qn ≤ i ∧ i < qn + n then charAt host (l + (i - qn)) else b i := by
  induction n generalizing l qn b with
  | zero =>
    have hsame : (fun i => if qn ≤ i ∧ i < qn + 0 then charAt host (l + (i - qn)) else b i) = b := by
      funext i
      rw [if_neg (by omega)]
    rw [hsame, copyLabel, wp_pure]
    exact (and_iff_right fun i hlo hhi => absurd hhi (by omega)).symm
  | succ n ih =>
    have hstep : (fun i => if qn + 1 ≤ i ∧ i < qn + 1 + n then charAt host (l + 1 + (i - (qn + 1)))
        else Function.update b qn (charAt host l) i) =
        fun i => if qn ≤ i ∧ i < qn + (n + 1) then charAt host (l + (i - qn)) else b i := by
      funext i
      by_cases hi : i = qn
      · subst hi
        rw [if_neg (by omega), if_pos (by omega), Function.update_self, Nat.sub_self, Nat.add_zero]
      · rw [Function.update_of_ne hi]
        by_cases hin : qn + 1 ≤ i ∧ i < qn + 1 + n
        · rw [if_pos hin, if_pos (by omega), show l + 1 + (i - (qn + 1)) = l + (i - qn) by omega]
        · rw [if_neg hin, if_neg (by omega)]
    rw [copyLabel, wp_bind, wp_write, ih, hstep, ← and_assoc]
    refine and_congr_left fun _ => ⟨fun ⟨hfirst, hrest⟩ i hlo hhi => ?_, fun hP => ?_⟩
    · rcases Nat.eq_or_lt_of_le hlo with rfl | hlt
      · exact hfirst
      · exact hrest i hlt (by omega)
    · exact ⟨hP qn le_rfl (by omega), fun i hlo hhi => hP i (by omega) (by omega)⟩

/-- Where no label ends, the outer loop goes on. -/
theorem encodeFrom_skip (h : ∀ i < n, ¬ AtEnd host adddot (c + i)) :
    encodeFrom host adddot (n + turns) c l qn = encodeFrom host adddot turns (c + n) l qn := by
  induction n generalizing c with
  | zero => rw [Nat.zero_add, Nat.add_zero]
  | succ n ih =>
    have hfirst : ¬ AtEnd host adddot c := h 0 (Nat.succ_pos n)
    rw [show n + 1 + turns = n + turns + 1 by omega, encodeFrom, if_neg hfirst, ih ?_,
      show c + 1 + n = c + (n + 1) by omega]
    intro i hi
    rw [show c + 1 + i = c + (i + 1) by omega]
    exact h (i + 1) (by omega)

/-- With the dot that may be missing, labels end at the dots. -/
theorem atEnd_iff : AtEnd host adddot c ↔ charAt (host ++ if adddot then [dot] else []) c = dot := by
  unfold AtEnd charAt
  rcases Nat.lt_trichotomy c host.length with hlt | rfl | hgt
  · rw [List.getD_append _ _ _ _ hlt]
    exact or_iff_left fun h => absurd h.1 hlt.ne
  · rw [List.getD_append_right _ _ _ _ le_rfl, Nat.sub_self]
    cases adddot <;> simp [dot]
  · rw [List.getD_append_right _ _ _ _ hgt.le, List.getD_eq_default _ _ hgt.le]
    have : c - host.length ≠ 0 := by omega
    cases adddot <;> simp [dot, this, hgt.ne']

/-- Bytes that stand somewhere in the host name -/
theorem holds_copied {bytes after : List UInt8} (hhost : host = before ++ bytes ++ after) :
    Holds (fun i => if qn ≤ i ∧ i < qn + bytes.length then charAt host (before.length + (i - qn)) else b i) qn bytes := by
  subst hhost
  rw [holds_iff]
  intro i hi
  rw [if_pos (by omega), Nat.add_sub_cancel_left, charAt, List.append_assoc,
    List.getD_append_right _ _ _ _ (Nat.le_add_right _ _), Nat.add_sub_cancel_left, List.getD_append _ _ _ _ hi,
    List.getD_eq_getElem _ _ hi]

theorem charAt_append {after : List UInt8} (i : ℕ) : charAt (before ++ after) (before.length + i) = charAt after i := by
  rw [charAt, List.getD_append_right _ _ _ _ (Nat.le_add_right _ _), Nat.add_sub_cancel_left, charAt]

/-- The dot that may be missing is behind all labels. -/
theorem exists_after {bytes rest : List UInt8}
    (h : host ++ (if adddot then [dot] else []) = before ++ (bytes ++ (dot :: rest))) :
    ∃ after, host = before ++ bytes ++ after := by
  cases adddot with
  | false => exact ⟨dot :: rest, by simpa using h⟩
  | true =>
    have hdrop := congrArg List.dropLast h
    rw [if_pos rfl, List.dropLast_concat, ← List.append_assoc,
      List.dropLast_append_of_ne_nil (List.cons_ne_nil _ _)] at hdrop
    exact ⟨_, hdrop⟩

/-- **The outer loop of `encode_qname`**, where all labels up to `before` have been written. -/
theorem wp_encodeFrom {Q : ℕ → Buffer → Prop} (before : List UInt8) (hclean : Clean labels)
    (hhost : host ++ (if adddot then [dot] else []) = before ++ dotted labels)
    (hturns : turns = (dotted labels).length + if adddot then 0 else 1)
    (hP : ∀ i, qn ≤ i → i < qn + (labels.flatMap Label.wire).length → P i)
    (hQ : ∀ b', Holds b' qn (labels.flatMap Label.wire) →
      (∀ i, i < qn ∨ qn + (labels.flatMap Label.wire).length ≤ i → b' i = b i) →
      Q (qn + (labels.flatMap Label.wire).length) b') :
    (encodeFrom host adddot turns before.length before.length qn).wp P Q E b := by
  -- Induction on the labels still to be written.
  induction labels generalizing before qn b turns with
  | nil =>
    have hlast : encodeFrom host adddot turns before.length before.length qn = pure qn := by
      rw [hturns]
      cases adddot with
      | true => rfl
      | false =>
        -- The end of the name is a label's end only if a dot has been added.
        have hnot : ¬ AtEnd host false before.length := by
          rw [atEnd_iff, hhost, charAt]
          simp [dotted, dot]
        exact if_neg hnot
    rw [hlast, wp_pure]
    exact hQ b trivial fun _ _ => rfl
  -- The loop passes over the bytes of the label, and writes it when it comes to the dot.
  | cons l labels ih =>
    obtain ⟨hdot, -⟩ := hclean l List.mem_cons_self
    have hcons : dotted (l :: labels) = l.bytes ++ (dot :: dotted labels) := by simp [dotted]
    rw [hcons] at hhost hturns
    have hskip : ∀ i < l.bytes.length, ¬ AtEnd host adddot (before.length + i) := by
      intro i hi
      rw [atEnd_iff, hhost, charAt_append, charAt, List.getD_append _ _ _ _ hi, List.getD_eq_getElem _ _ hi]
      exact fun h => hdot (h ▸ List.getElem_mem hi)
    have hstop : AtEnd host adddot (before.length + l.bytes.length) := by
      rw [atEnd_iff, hhost, charAt_append, charAt, List.getD_append_right _ _ _ _ le_rfl, Nat.sub_self]
      rfl
    obtain ⟨after, hafter⟩ := exists_after hhost
    obtain ⟨turns', hturns'⟩ : ∃ turns', turns' = (dotted labels).length + if adddot then 0 else 1 := ⟨_, rfl⟩
    rw [hturns, List.length_append, List.length_cons, show ∀ e, l.bytes.length + ((dotted labels).length + 1) + e =
      l.bytes.length + ((dotted labels).length + e + 1) by intro e; omega, ← hturns',
      encodeFrom_skip hskip, encodeFrom, if_pos hstop]
    simp only [List.flatMap_cons, List.length_append, Label.wire, List.length_cons] at hP hQ
    rw [wp_bind, wp_write, wp_bind, wp_copyLabel, Nat.add_sub_cancel_left]
    -- From here the loop goes on as behind `before` and this label.
    have hnext : before.length + l.bytes.length + 1 = (before ++ (l.bytes ++ [dot])).length := by
      simp [Nat.add_assoc]
    have hstep : ∀ i, qn + 1 + l.bytes.length + i = qn + (l.bytes.length + 1 + i) := by
      intro i
      omega
    refine ⟨hP qn le_rfl (by omega), fun i hlo hhi => hP i (by omega) (by omega), ?_⟩
    rw [hnext]
    refine ih _ (fun l hl => hclean l (List.mem_cons_of_mem _ hl)) (by simpa using hhost) hturns'
      (fun i hlo hhi => hP i (by omega) (by omega)) fun b' hrest hframe => ?_
    rw [hstep] at hframe ⊢
    -- The length, the bytes of the label, the rest, and what is left alone.
    refine hQ b' (holds_append.mpr ⟨⟨?_, ?_⟩, ?_⟩) fun i hi => ?_
    · rw [hframe qn (.inl (by omega)), if_neg (by omega), Function.update_self]
    · exact (holds_copied hafter).congr fun i hlo hhi => hframe i (.inl (by omega))
    · rwa [List.length_cons, show qn + (l.bytes.length + 1) = qn + 1 + l.bytes.length by omega]
    · rw [hframe i (by omega), if_neg (by omega), Function.update_of_ne (by omega)]

/-- `adddot` is set just where the last dot is missing. -/
theorem append_adddot (hclean : Clean labels) (hne : host ≠ [])
    (hhost : host = dotted labels ∨ host ++ [dot] = dotted labels) :
    host ++ (if decide (charAt host (host.length - 1) ≠ dot ∧ charAt host host.length = 0) then [dot] else []) =
      dotted labels := by
  have hlast : ∀ (l : List UInt8) x, charAt (l ++ [x]) ((l ++ [x]).length - 1) = x := by
    intro l x
    simp [charAt]
  have hend : charAt host host.length = 0 := List.getD_eq_default _ _ le_rfl
  rcases List.eq_nil_or_concat' labels with rfl | ⟨front, l, rfl⟩
  · rcases hhost with rfl | hhost
    · exact absurd rfl hne
    · exact absurd hhost (List.append_ne_nil_of_right_ne_nil _ (List.cons_ne_nil _ _))
  have hdotted : dotted (front ++ [l]) = dotted front ++ l.bytes ++ [dot] := by simp [dotted]
  rw [hdotted] at hhost ⊢
  rcases hhost with rfl | hhost
  · rw [hlast, if_neg (by simp), List.append_nil]
  · obtain rfl := List.append_cancel_right hhost
    -- the last byte is one of the last label
    obtain ⟨bytes, x, hbytes⟩ : ∃ bytes x, l.bytes = bytes ++ [x] :=
      (List.eq_nil_or_concat' l.bytes).resolve_left fun h => absurd l.pos (by simp [h])
    have hx : x ≠ dot := by
      rintro rfl
      exact (hclean l (by simp)).1 (by simp [hbytes])
    rw [hend, hbytes, ← List.append_assoc, hlast, if_pos (by simp [hx])]

/-- **What `encode_qname` writes** is the wire form of the labels, and nothing else. -/
theorem wp_encodeQname {Q : Unit → Buffer → Prop} (hclean : Clean labels) (hne : host ≠ [])
    (hhost : host = dotted labels ∨ host ++ [dot] = dotted labels)
    (hP : ∀ i, qn ≤ i → i < qn + (Name.plain labels).wire.length → P i)
    (hQ : ∀ b', Holds b' qn (Name.plain labels).wire →
      (∀ i, i < qn ∨ qn + (Name.plain labels).wire.length ≤ i → b' i = b i) → Q () b') :
    (encodeQname host qn).wp P Q E b := by
  have hfull := append_adddot hclean hne hhost
  rw [encodeQname, wp_bind]
  generalize decide (charAt host (host.length - 1) ≠ dot ∧ charAt host host.length = 0) = adddot at *
  simp only [Name.wire, List.length_append, List.length_singleton] at hP hQ
  have hturns : host.length + 1 = (dotted labels).length + if adddot then 0 else 1 := by
    have hlen := congrArg List.length hfull
    cases adddot with
    | true => simpa using hlen
    | false => simpa using hlen
  refine wp_encodeFrom [] hclean hfull hturns (fun i hlo hhi => hP i hlo (by omega))
    fun b' hholds hframe => ?_
  rw [wp_write]
  refine ⟨hP _ (by omega) (by omega), hQ _ (holds_append.mpr ⟨?_, ?_, trivial⟩) fun i hi => ?_⟩
  · exact hholds.congr fun i _ hhi => Function.update_of_ne (by omega) _ _
  · exact Function.update_self _ _ _
  · rw [Function.update_of_ne (by omega), hframe i (by omega)]

/-! ## `decode_qname` as the inverse -/

/-- Spelled out, a name is its labels with a dot behind each. -/
theorem holds_spelled (h : Holds b p (labels.flatMap Label.wire))
    (hq : q = p + (labels.flatMap Label.wire).length) : Holds (spelled b p q) p (dotted labels) := by
  subst hq
  induction labels generalizing b p with
  | nil => trivial
  | cons l labels ih =>
    simp only [List.flatMap_cons, Label.wire, holds_append, List.length_append, List.length_cons] at h ⊢
    obtain ⟨⟨hhead, hbytes⟩, hrest⟩ := h
    have hlen : (b p).toNat = l.bytes.length := by rw [hhead, l.toNat_length]
    have hne : b p ≠ 0 := by
      intro hzero
      rw [hzero] at hlen
      exact absurd hlen.symm l.pos.ne'
    have hnext : p + (l.bytes.length + 1) = p + (b p).toNat + 1 := by omega
    rw [hnext] at hrest
    -- the first label is moved, and then the others
    rw [← spelled_cons hne (by omega) rfl, show dotted (l :: labels) = (l.bytes ++ [dot]) ++ dotted labels from rfl,
      holds_append, holds_append]
    refine ⟨⟨?_, ?_, trivial⟩, ?_⟩
    · refine holds_iff.mpr fun i hi => ?_
      rw [spelled_outside (.inl (by omega)), if_neg (by omega), if_pos (by omega),
        show p + i + 1 = p + 1 + i by omega, holds_iff.mp hbytes i hi]
    · rw [spelled_outside (.inl (by omega)), if_pos (by omega)]
    · rw [List.length_append, List.length_singleton, hnext, show p + (l.bytes.length + 1 +
        (labels.flatMap Label.wire).length) = p + (b p).toNat + 1 + (labels.flatMap Label.wire).length by omega]
      refine ih (hrest.congr fun i hlo _ => ?_)
      rw [if_neg (by omega), if_neg (by omega)]

theorem zero_not_mem_dotted (hclean : Clean labels) : 0 ∉ dotted labels := by
  intro hzero
  obtain ⟨l, hl, hmem⟩ := List.mem_flatMap.mp hzero
  rcases List.mem_append.mp hmem with hmem | hmem
  · exact (hclean l hl).2 hmem
  · exact absurd (List.mem_singleton.mp hmem) (by decide)

/-- What `decode_qname` makes of the wire form of labels -/
theorem wp_decodeQname {Q : Unit → Buffer → Prop} {max : ℕ} (h : Holds b qn (Name.plain labels).wire)
    (hmax : (Name.plain labels).wire.length ≤ max) (hP : ∀ i, qn ≤ i → i < qn + max → P i)
    (hQ : ∀ b', Holds b' qn (dotted labels ++ [0]) → Q () b') : (decodeQname (qn + max) qn).wp P Q E b := by
  simp only [Name.wire, holds_append, List.length_append, List.length_singleton] at h hmax
  have hends : NameEnds b (qn + max) qn (qn + (labels.flatMap Label.wire).length) :=
    ⟨labels_of_holds h.1, by omega, h.2.1⟩
  rw [decodeQname, wp_decodeFrom (fun hnone => absurd hends (hnone _)) (by omega)]
  refine ⟨fun i hi => ?_, fun q hq => ?_⟩
  · have hlt := hends.touched_lt hi
    obtain ⟨q, hl, -, hlo, -⟩ := hi
    exact hP i (hl.le.trans hlo) hlt
  · obtain rfl := hends.unique hq
    refine hQ _ (holds_append.mpr ⟨holds_spelled h.1 rfl, ?_, trivial⟩)
    rw [length_dotted, spelled_outside (.inr le_rfl)]
    exact h.2.1

end Hosts

/-- **Host names round-trip.** `encode_qname` writes the length and the bytes of each label and a zero byte, no
    matter whether the host name ends in a dot, and from that `decode_qname` makes the host name with a dot behind
    the last label. -/
theorem qname_round_trip (host : List UInt8) (labels : List Label) (hne : host ≠ []) (hclean : Clean labels)
    (hhost : host = dotted labels ∨ host ++ [dot] = dotted labels) (b : Buffer) (qn : ℕ) :
    ((encodeQname host qn b).1 = .ok () ∧ Holds (encodeQname host qn b).2.1 qn (Name.plain labels).wire ∧
        (Name.plain labels).wire.length = (dotted labels).length + 1 ∧
        (∀ i, i < qn ∨ qn + (Name.plain labels).wire.length ≤ i → (encodeQname host qn b).2.1 i = b i) ∧
        ∀ i ∈ (encodeQname host qn b).2.2, qn ≤ i ∧ i < qn + (Name.plain labels).wire.length) ∧
      0 ∉ dotted labels ∧
      ∀ max, (Name.plain labels).wire.length ≤ max →
        (decodeQname (qn + max) qn (encodeQname host qn b).2.1).1 = .ok () ∧
          Holds (decodeQname (qn + max) qn (encodeQname host qn b).2.1).2.1 qn (dotted labels ++ [0]) := by
  have hencode : (encodeQname host qn).wp (fun i => qn ≤ i ∧ i < qn + (Name.plain labels).wire.length)
      (fun _ b' => Holds b' qn (Name.plain labels).wire ∧
        ∀ i, i < qn ∨ qn + (Name.plain labels).wire.length ≤ i → b' i = b i) (fun _ => False) b :=
    wp_encodeQname hclean hne hhost (fun i hlo hhi => ⟨hlo, hhi⟩) fun b' hholds hframe => ⟨hholds, hframe⟩
  obtain ⟨htouched, ⟨⟩, hok, hholds, hframe⟩ := of_wp hencode
  refine ⟨⟨hok, hholds, ?_, hframe, htouched⟩, zero_not_mem_dotted hclean, fun max hmax => ?_⟩
  · rw [length_dotted, Name.wire, List.length_append, List.length_singleton]
  · have hdecode : (decodeQname (qn + max) qn).wp (fun _ => True)
        (fun _ b' => Holds b' qn (dotted labels ++ [0])) (fun _ => False) (encodeQname host qn b).2.1 :=
      wp_decodeQname hholds hmax (fun _ _ _ => trivial) fun _ h => h
    obtain ⟨-, ⟨⟩, hok', hholds'⟩ := of_wp hdecode
    exact ⟨hok', hholds'⟩

/-- `a.b`, with a dot behind it or not -/
theorem qname_round_trip_two_labels :
    Holds (encodeQname [97, 46, 98] 12 fun _ => 7).2.1 12 [1, 97, 1, 98, 0] ∧
      Holds (encodeQname [97, 46, 98, 46] 12 fun _ => 7).2.1 12 [1, 97, 1, 98, 0] :=
  ⟨(qname_round_trip [97, 46, 98] [⟨[97], by decide, by decide⟩, ⟨[98], by decide, by decide⟩] (by decide)
      (by simp [Clean, dot]) (.inr rfl) (fun _ => 7) 12).1.2.1,
    (qname_round_trip [97, 46, 98, 46] [⟨[97], by decide, by decide⟩, ⟨[98], by decide, by decide⟩] (by decide)
      (by simp [Clean, dot]) (.inl rfl) (fun _ => 7) 12).1.2.1⟩

end Xv6.User.Dns
