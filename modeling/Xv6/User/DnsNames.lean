import Mathlib
import Xv6.Lib.BufferProgram
import Xv6.User.Dns

/-!
# Names in DNS Replies

What `decode_qname` does to the bytes of a name, in terms of where its labels begin.

- `Labels`: a row of whole labels;
- `Touched`: the offsets of the labels that begin before `cc`, whether they end there or not;
- `spelled`: the name with its lengths gone and a dot behind each label;
- `wp_decodeQname`, `wp_plainName`: what the code needs to stay inside, and where it goes on.
-/

namespace Xv6.User.Dns

open Xv6.Lib.BufferProgram

/-! ## Labels -/

/-- From `p` to `q` there are whole labels, each a length that is not zero and as many bytes. -/
inductive Labels (b : Buffer) : ℕ → ℕ → Prop where
  | nil (p : ℕ) : Labels b p p
  | cons {p q : ℕ} : b p ≠ 0 → Labels b (p + (b p).toNat + 1) q → Labels b p q

/-- The labels from `p` on end with the zero byte at `q`, before `cc`. -/
structure NameEnds (b : Buffer) (cc p q : ℕ) : Prop where
  labels : Labels b p q
  lt : q < cc
  zero : b q = 0

/-- `i` lies in a label that follows on `p` and begins before `cc`, or is where the name ends. -/
def Touched (b : Buffer) (cc p i : ℕ) : Prop := ∃ q, Labels b p q ∧ q < cc ∧ q ≤ i ∧ i ≤ q + (b q).toNat

/-- Each label that follows on `p` and begins before `cc` ends before `cc`. -/
def NameFits (b : Buffer) (cc p : ℕ) : Prop := ∀ q, Labels b p q → q < cc → q + (b q).toNat < cc

open Classical in
/-- The buffer with the name from `p` to `q` spelled out: each byte of a label where its predecessor was,
    and a dot behind the label. -/
noncomputable def spelled (b : Buffer) (p q : ℕ) : Buffer := fun i =>
  if p ≤ i ∧ i < q then if Labels b p (i + 1) then dot else b (i + 1) else b i

/-- The string at `s` ends at `z`. -/
structure StringEnds (b : Buffer) (s z : ℕ) : Prop where
  le : s ≤ z
  zero : b z = 0
  first : ∀ i, s ≤ i → i < z → b i ≠ 0

section Labels

variable {b b' : Buffer} {cc p q i z : ℕ}

theorem Labels.le (h : Labels b p q) : p ≤ q := by
  induction h with
  | nil => exact le_rfl
  | cons _ _ ih => omega

/-- What follows on a label -/
theorem labels_iff (hp : b p ≠ 0) : Labels b p q ↔ q = p ∨ Labels b (p + (b p).toNat + 1) q := by
  constructor
  · intro h
    cases h with
    | nil => exact .inl rfl
    | cons _ h => exact .inr h
  · rintro (rfl | h)
    · exact .nil _
    · exact .cons hp h

theorem labels_of_zero (hp : b p = 0) (h : Labels b p q) : q = p := by
  cases h with
  | nil => rfl
  | cons hne => exact absurd hp hne

/-- Labels depend on the bytes from the first one on. -/
theorem Labels.congr (h : Labels b p q) (heq : ∀ j, p ≤ j → b' j = b j) : Labels b' p q := by
  induction h with
  | nil => exact .nil _
  | @cons p q hne _ ih =>
    have hp := heq p le_rfl
    refine .cons (by rwa [hp]) ?_
    rw [hp]
    exact ih fun j hj => heq j (by omega)

theorem labels_congr (heq : ∀ j, p ≤ j → b' j = b j) : Labels b' p q ↔ Labels b p q :=
  ⟨fun h => h.congr fun j hj => (heq j hj).symm, fun h => h.congr heq⟩

theorem nameEnds_congr (heq : ∀ j, p ≤ j → b' j = b j) : NameEnds b' cc p q ↔ NameEnds b cc p q := by
  constructor
  · exact fun h => ⟨(labels_congr heq).mp h.labels, h.lt, heq q h.labels.le ▸ h.zero⟩
  · exact fun h => ⟨(labels_congr heq).mpr h.labels, h.lt, (heq q h.labels.le).trans h.zero⟩

theorem touched_congr (heq : ∀ j, p ≤ j → b' j = b j) : Touched b' cc p i ↔ Touched b cc p i := by
  refine exists_congr fun q => ?_
  rw [labels_congr heq]
  exact and_congr_right fun h => by rw [heq q h.le]

/-- A name that begins with a label ends where the rest does. -/
theorem nameEnds_iff (hp : b p ≠ 0) : NameEnds b cc p q ↔ NameEnds b cc (p + (b p).toNat + 1) q := by
  constructor
  · rintro ⟨hl, hlt, hzero⟩
    rcases (labels_iff hp).mp hl with rfl | hl
    · exact absurd hzero hp
    · exact ⟨hl, hlt, hzero⟩
  · exact fun h => ⟨.cons hp h.labels, h.lt, h.zero⟩

theorem touched_iff (hp : b p ≠ 0) (hlt : p < cc) :
    Touched b cc p i ↔ (p ≤ i ∧ i ≤ p + (b p).toNat) ∨ Touched b cc (p + (b p).toNat + 1) i := by
  constructor
  · rintro ⟨q, hl, hq⟩
    rcases (labels_iff hp).mp hl with rfl | hl
    · exact .inl hq.2
    · exact .inr ⟨q, hl, hq⟩
  · rintro (hi | ⟨q, hl, hq⟩)
    · exact ⟨p, .nil p, hlt, hi⟩
    · exact ⟨q, .cons hp hl, hq⟩

theorem nameFits_iff : NameFits b cc p ↔ ∀ i, Touched b cc p i → i < cc := by
  constructor
  · rintro h i ⟨q, hl, hq, -, hi⟩
    have := h q hl hq
    omega
  · exact fun h q hl hq => h _ ⟨q, hl, hq, by omega, le_rfl⟩

/-- The name itself is touched. -/
theorem NameEnds.touched (h : NameEnds b cc p q) (hlo : p ≤ i) (hhi : i ≤ q) : Touched b cc p i := by
  obtain ⟨hl, hlt, hzero⟩ := h
  induction hl with
  | nil p => exact ⟨p, .nil p, hlt, hlo, by omega⟩
  | @cons p q hne hl ih =>
    have := hl.le
    rw [touched_iff hne (by omega)]
    by_cases hi : i ≤ p + (b p).toNat
    · exact .inl ⟨hlo, hi⟩
    · exact .inr (ih (by omega) hhi hlt hzero)

/-! ### The name spelled out -/

theorem spelled_outside (h : i < p ∨ q ≤ i) : spelled b p q i = b i := by
  rw [spelled, if_neg (by omega)]

theorem spelled_nil (b : Buffer) (p : ℕ) : spelled b p p = b := by
  funext i
  exact spelled_outside (by omega)

/-- The first label is spelled out, and then the rest. -/
theorem spelled_cons (hp : b p ≠ 0) (hq : p + (b p).toNat + 1 ≤ q) (heq : b' = fun i =>
      if i = p + (b p).toNat then dot else if p ≤ i ∧ i < p + (b p).toNat then b (i + 1) else b i) :
    spelled b' (p + (b p).toNat + 1) q = spelled b p q := by
  have hafter : ∀ j, p + (b p).toNat + 1 ≤ j → b' j = b j := by
    intro j hj
    rw [heq]
    simp only [show ¬ j = p + (b p).toNat by omega, show ¬ (p ≤ j ∧ j < p + (b p).toNat) by omega, if_false]
  funext i
  by_cases hi : p + (b p).toNat + 1 ≤ i
  · -- behind the label both look at the rest
    have hlabels : Labels b p (i + 1) ↔ Labels b' (p + (b p).toNat + 1) (i + 1) := by
      rw [labels_iff hp, or_iff_right (by omega), labels_congr hafter]
    by_cases hl : Labels b p (i + 1)
    · simp only [spelled, hi, show p ≤ i by omega, true_and, if_pos hl, if_pos (hlabels.mp hl), hafter i hi]
    · simp only [spelled, hi, show p ≤ i by omega, true_and, if_neg hl, if_neg (mt hlabels.mpr hl),
        hafter (i + 1) (by omega), hafter i hi]
  · rw [spelled_outside (.inl (by omega)), heq]
    dsimp only
    by_cases hend : i = p + (b p).toNat
    · have hlabels : Labels b p (i + 1) := .cons hp (by rw [hend]; exact .nil _)
      rw [if_pos hend, spelled, if_pos (by omega), if_pos hlabels]
    · rw [if_neg hend]
      by_cases hin : p ≤ i ∧ i < p + (b p).toNat
      · have hlabels : ¬ Labels b p (i + 1) := by
          rw [labels_iff hp]
          rintro (heq | hl)
          · omega
          · have := hl.le
            omega
        rw [if_pos hin, spelled, if_pos (by omega), if_neg hlabels]
      · rw [if_neg hin, spelled_outside (by omega)]

/-- The string that begins where the name did ends in it. -/
theorem NameEnds.exists_stringEnds (h : NameEnds b cc p q) : ∃ z, StringEnds (spelled b p q) p z ∧ z ≤ q := by
  classical
  have hq : p ≤ q ∧ spelled b p q q = 0 := ⟨h.labels.le, (spelled_outside (.inr le_rfl)).trans h.zero⟩
  have hex : ∃ z, p ≤ z ∧ spelled b p q z = 0 := ⟨q, hq⟩
  refine ⟨Nat.find hex, ⟨(Nat.find_spec hex).1, (Nat.find_spec hex).2, fun i hlo hlt hzero => ?_⟩, Nat.find_min' hex hq⟩
  exact Nat.find_min hex hlt ⟨hlo, hzero⟩

theorem StringEnds.unique {y : ℕ} (h : StringEnds b p z) (h' : StringEnds b p y) : z = y := by
  rcases Nat.lt_trichotomy z y with hlt | heq | hgt
  · exact absurd h.zero (h'.first z h.le hlt)
  · exact heq
  · exact absurd h'.zero (h.first y h'.le hgt)

end Labels

/-! ## What the code needs -/

section Code

variable {b : Buffer} {cc p q l turns : ℕ} {P : ℕ → Prop} {E : Exit → Prop}

/-- The bytes of a label move down by one. -/
theorem wp_decodeLabel {Q : Unit → Buffer → Prop} :
    (decodeLabel l p).wp P Q E b ↔ (0 < l → ∀ i, p ≤ i → i ≤ p + l → P i) ∧
      Q () fun i => if p ≤ i ∧ i < p + l then b (i + 1) else b i := by
  -- Induction on the length of the label.
  induction l generalizing p b with
  | zero =>
    have hsame : (fun i => if p ≤ i ∧ i < p + 0 then b (i + 1) else b i) = b := by
      funext i
      rw [if_neg (by omega)]
    rw [hsame, decodeLabel, wp_pure]
    simp
  | succ l ih =>
    -- The first byte moves, and then the rest by the hypothesis.
    have hmoved : (fun i => if p + 1 ≤ i ∧ i < p + 1 + l then Function.update b p (b (p + 1)) (i + 1)
        else Function.update b p (b (p + 1)) i) = fun i => if p ≤ i ∧ i < p + (l + 1) then b (i + 1) else b i := by
      funext i
      by_cases hip : i = p
      · subst hip
        rw [if_neg (by omega), if_pos (by omega), Function.update_self]
      · rw [Function.update_of_ne hip]
        by_cases hin : p + 1 ≤ i ∧ i < p + 1 + l
        · rw [if_pos hin, if_pos (by omega), Function.update_of_ne (by omega)]
        · rw [if_neg hin, if_neg (by omega)]
    simp only [decodeLabel, wp_bind, wp_read, wp_write, ih, hmoved]
    -- The bytes read are those moved, and one more behind them.
    constructor
    · rintro ⟨hnext, hhere, hrest, hQ⟩
      refine ⟨fun _ i hlo hhi => ?_, hQ⟩
      rcases Nat.eq_or_lt_of_le hlo with rfl | hlt
      · exact hhere
      rcases Nat.eq_or_lt_of_le (Nat.succ_le_of_lt hlt) with rfl | hlt'
      · exact hnext
      · exact hrest (by omega) i (by omega) (by omega)
    · rintro ⟨hP, hQ⟩
      have hP := hP (Nat.succ_pos l)
      exact ⟨hP _ (by omega) (by omega), hP _ le_rfl (by omega), fun _ i hlo hhi => hP i (by omega) (by omega), hQ⟩

/-- **`decode_qname`** touches the labels that begin before `cc`, and spells the name out if it ends there. -/
theorem wp_decodeFrom {Q : Unit → Buffer → Prop} (hE : (∀ q, ¬ NameEnds b cc p q) → E .invalidReply)
    (hturns : cc - p < turns) :
    (decodeFrom cc turns p).wp P Q E b ↔
      (∀ i, Touched b cc p i → P i) ∧ ∀ q, NameEnds b cc p q → Q () (spelled b p q) := by
  -- induction on the turns that are left, with the label that this one moves
  induction turns generalizing p b with
  | zero => exact absurd hturns (Nat.not_lt_zero _)
  | succ turns ih =>
    rw [decodeFrom, wp_ite]
    by_cases hlt : p < cc
    · rw [and_iff_right fun hge => absurd hlt (Nat.not_lt.mpr hge), wp_bind, wp_read,
        forall_prop_of_true (Nat.not_le.mpr hlt), wp_ite]
      by_cases hzero : b p = 0
      · -- the end of the name
        rw [forall_prop_of_true hzero, wp_pure, and_iff_left fun hne => absurd hzero hne]
        have htouched : ∀ i, Touched b cc p i ↔ i = p := by
          intro i
          constructor
          · rintro ⟨q, hl, -, hlo, hhi⟩
            obtain rfl := labels_of_zero hzero hl
            rw [hzero] at hhi
            exact Nat.le_antisymm hhi hlo
          · rintro rfl
            exact ⟨i, .nil i, hlt, le_rfl, by omega⟩
        refine and_congr (by simp [htouched]) ⟨fun hQ q hq => ?_, fun hQ => ?_⟩
        · obtain rfl := labels_of_zero hzero hq.labels
          rwa [spelled_nil]
        · have := hQ p ⟨.nil p, hlt, hzero⟩
          rwa [spelled_nil] at this
      · -- one label more
        rw [and_iff_right fun h => absurd h hzero, forall_prop_of_true hzero]
        have hpos : 0 < (b p).toNat := Nat.pos_of_ne_zero fun h => hzero (UInt8.toNat_inj.mp h)
        set b' : Buffer := fun i =>
          if i = p + (b p).toNat then dot else if p ≤ i ∧ i < p + (b p).toNat then b (i + 1) else b i with hb'
        have hmoved : Function.update (fun i => if p ≤ i ∧ i < p + (b p).toNat then b (i + 1) else b i)
            (p + (b p).toNat) dot = b' := by
          funext i
          rw [Function.update_apply]
        have hafter : ∀ j, p + (b p).toNat + 1 ≤ j → b' j = b j := by
          intro j hj
          rw [hb']
          simp only [show ¬ j = p + (b p).toNat by omega, show ¬ (p ≤ j ∧ j < p + (b p).toNat) by omega, if_false]
        simp only [wp_bind, wp_decodeLabel, wp_write, hmoved]
        rw [ih (fun h => hE fun q hq => h q ((nameEnds_congr hafter).mpr ((nameEnds_iff hzero).mp hq))) (by omega)]
        simp only [touched_congr hafter, nameEnds_congr hafter, touched_iff hzero hlt, nameEnds_iff hzero]
        constructor
        · rintro ⟨hhere, hlabel, -, hrest, hQ⟩
          refine ⟨fun i hi => ?_, fun q hq => ?_⟩
          · rcases hi with ⟨hlo, hhi⟩ | hi
            · exact hlabel hpos i hlo hhi
            · exact hrest i hi
          · rw [← spelled_cons hzero hq.labels.le hb']
            exact hQ q hq
        · rintro ⟨hP, hQ⟩
          refine ⟨hP p (.inl ⟨le_rfl, by omega⟩), fun _ i hlo hhi => hP i (.inl ⟨hlo, hhi⟩),
            hP _ (.inl ⟨by omega, le_rfl⟩), fun i hi => hP i (.inr hi), fun q hq => ?_⟩
          rw [spelled_cons hzero hq.labels.le hb']
          exact hQ q hq
    · rw [forall_prop_of_true (Nat.le_of_not_lt hlt), wp_giveUp]
      have hnone : ∀ q, Labels b p q → ¬ q < cc := fun q hl => by have := hl.le; omega
      refine iff_of_true ⟨hE fun q hq => hnone q hq.labels hq.lt, fun h => absurd (Nat.le_of_not_lt hlt) h⟩
        ⟨?_, fun q hq => absurd hq.lt (hnone q hq.labels)⟩
      rintro i ⟨q, hl, hq, _⟩
      exact absurd hq (hnone q hl)

theorem wp_strlenFrom {Q : ℕ → Buffer → Prop} {s z : ℕ} (hz : StringEnds b s z) (hturns : z - s < turns) :
    (strlenFrom turns s).wp P Q E b ↔ (∀ i, s ≤ i → i ≤ z → P i) ∧ Q (z - s) b := by
  induction turns generalizing s Q with
  | zero => exact absurd hturns (Nat.not_lt_zero _)
  | succ turns ih =>
    rw [strlenFrom, wp_bind, wp_read, wp_ite]
    by_cases hzero : b s = 0
    · have hs : z = s := by
        by_contra hne
        exact hz.first s le_rfl (Nat.lt_of_le_of_ne hz.le (Ne.symm hne)) hzero
      subst hs
      rw [forall_prop_of_true hzero, wp_pure, and_iff_left fun hne => absurd hzero hne, Nat.sub_self]
      refine and_congr_left fun _ => ⟨fun hP i hlo hhi => ?_, fun hP => hP _ le_rfl le_rfl⟩
      rwa [Nat.le_antisymm hhi hlo]
    · have hlt : s < z := Nat.lt_of_le_of_ne hz.le fun heq => hzero (heq ▸ hz.zero)
      have hz' : StringEnds b (s + 1) z := ⟨hlt, hz.zero, fun i hi => hz.first i (by omega)⟩
      rw [and_iff_right fun h => absurd h hzero, forall_prop_of_true hzero, wp_bind, ih hz' (by omega)]
      simp only [wp_pure, show z - (s + 1) + 1 = z - s by omega]
      constructor
      · rintro ⟨hhere, hrest, hQ⟩
        refine ⟨fun i hlo hhi => ?_, hQ⟩
        rcases Nat.eq_or_lt_of_le hlo with rfl | hlt'
        · exact hhere
        · exact hrest i hlt' hhi
      · rintro ⟨hP, hQ⟩
        exact ⟨hP s le_rfl hz.le, fun i hlo hhi => hP i (by omega) hhi, hQ⟩

/-- The name at `p` ends before `cc`; with it spelled out the buffer is `b'`, and the code goes on at
    `next`, behind the string. -/
def NameLeads (b : Buffer) (cc p : ℕ) (b' : Buffer) (next : ℕ) : Prop :=
  ∃ q z, NameEnds b cc p q ∧ StringEnds (spelled b p q) p z ∧ b' = spelled b p q ∧ next = z + 1

/-- **A name that is not compressed.** -/
theorem wp_plainName {Q : ℕ → Buffer → Prop} (hE : (∀ q, ¬ NameEnds b cc p q) → E .invalidReply) :
    (plainName cc p).wp P Q E b ↔
      (∀ i, Touched b cc p i → P i) ∧ ∀ b' next, NameLeads b cc p b' next → Q next b' := by
  rw [plainName, wp_bind, decodeQname, wp_decodeFrom hE (by omega)]
  refine and_congr_right fun hP => ⟨?_, fun h q hq => ?_⟩
  · rintro h b' next ⟨q, z, hq, hz, rfl, rfl⟩
    have hzq : z ≤ q := by
      obtain ⟨y, hy, hle⟩ := hq.exists_stringEnds
      exact hz.unique hy ▸ hle
    have := hq.lt
    have hrun := h q hq
    rw [wp_bind, strlen, wp_strlenFrom hz (by omega)] at hrun
    have hle := hz.le
    simpa [show p + (z - p) + 1 = z + 1 by omega] using hrun.2
  · obtain ⟨z, hz, hzq⟩ := hq.exists_stringEnds
    have := hq.lt
    have hle := hz.le
    rw [wp_bind, strlen, wp_strlenFrom hz (by omega), wp_pure, show p + (z - p) + 1 = z + 1 by omega]
    exact ⟨fun i hlo hhi => hP i (hq.touched hlo (hhi.trans hzq)), h _ _ ⟨q, z, hq, hz, rfl, rfl⟩⟩

end Code

end Xv6.User.Dns
