import Mathlib
import Xv6.Kernel.Net

/-!
# The Checksum of the Pseudo Header

`net_tx_tcp_content` leaves the checksum of a segment to the network card, which takes what it finds in the
field, adds the length and the words of the segment, and stores the complement. The field has to be the
one's-complement sum of the addresses and the protocol, then.

The sum of five numbers may have a carry again after it has been folded once, and that one is cut off.

- `Offload`: what the card does;
- `Completes`: the value in the field, and what the card makes of it, are right;
- `completes_iff`: when they are.
-/

namespace Xv6.Kernel.PartialChecksum

open Xv6.Kernel.Net (bswaps bswapl IPPROTO_TCP)

/-! ## The code -/

/-- `tcp_partial_checksum(ip_src, ip_dst, ip_p)` -/
def tcpPartialChecksum (ipSrc ipDst : UInt32) (ipP : UInt8) : UInt16 :=
  let pseudo : UInt32 := 0
  let pseudo := pseudo + (bswaps ((ipSrc >>> 16) &&& 0xffff).toUInt16).toUInt32
  let pseudo := pseudo + (bswaps (ipSrc &&& 0xffff).toUInt16).toUInt32
  let pseudo := pseudo + (bswaps ((ipDst >>> 16) &&& 0xffff).toUInt16).toUInt32
  let pseudo := pseudo + (bswaps (ipDst &&& 0xffff).toUInt16).toUInt32
  let pseudo := pseudo + ipP.toUInt16.toUInt32
  let pseudo := (pseudo >>> 16) + (pseudo &&& 0xffff)
  bswaps pseudo.toUInt16

/-- `tcphdr->sum` in `net_tx_tcp_content`, which has the addresses in host byte order -/
def tcpSum (src dst : UInt32) (ipP : UInt8) : UInt16 := tcpPartialChecksum (bswapl src) (bswapl dst) ipP

/-! ## What it is for -/

/-- The sum of the address half-words and the protocol -/
def pseudoSum (src dst : UInt32) (ipP : UInt8) : ℕ :=
  src.toNat / 2 ^ 16 + src.toNat % 2 ^ 16 + dst.toNat / 2 ^ 16 + dst.toNat % 2 ^ 16 + ipP.toNat

/-- A checksum of the pseudo header and a segment of the given length is right: the receiver's sum is 0 in
    one's-complement arithmetic. The words are those of the segment without its checksum. -/
def Checks (src dst : UInt32) (ipP : UInt8) (len : ℕ) (words : List UInt16) (sum : UInt16) : Prop :=
  pseudoSum src dst ipP + len + (words.map UInt16.toNat).sum + sum.toNat ≡ 0 [MOD 65535]

/-- The network card, for a packet with `E1000_TXD_CMD_TSE`: it adds the length and the segment to what is in the
    field, and stores the complement of the sum. -/
structure Offload where
  complete : UInt16 → ℕ → List UInt16 → UInt16
  complement : ∀ field len words,
    field.toNat + len + (words.map UInt16.toNat).sum + (complete field len words).toNat ≡ 0 [MOD 65535]

/-- A card that computes the complement with one division -/
instance : Inhabited Offload where
  default :=
    { complete := fun field len words => UInt16.ofNat (65535 - (field.toNat + len + (words.map UInt16.toNat).sum) % 65535)
      complement := fun field len words => by
        rw [UInt16.toNat_ofNat_of_lt' (by simp [UInt16.size]; omega), Nat.ModEq]
        omega }

/-- **The checksum completes**: the value in the field is the sum, and the card makes the right checksum of it for
    every segment. -/
def Completes (card : Offload) (src dst : UInt32) (ipP : UInt8) : Prop :=
  (bswaps (tcpSum src dst ipP)).toNat ≡ pseudoSum src dst ipP [MOD 65535] ∧
    ∀ len words, Checks src dst ipP len words (card.complete (bswaps (tcpSum src dst ipP)) len words)

/-! ## Byte order -/

theorem bswaps_bswaps (x : UInt16) : bswaps (bswaps x) = x := by
  unfold bswaps
  apply UInt16.eq_of_toBitVec_eq
  simp only [UInt16.toBitVec_or, UInt16.toBitVec_and, UInt16.toBitVec_shiftLeft, UInt16.toBitVec_shiftRight,
    UInt16.toBitVec_ofNat]
  ext i hi
  interval_cases i <;> simp

/-- The first half-word of an address is the lower one in network byte order. -/
theorem bswaps_low (x : UInt32) : bswaps (bswapl x &&& 0xffff).toUInt16 = (x >>> 16).toUInt16 := by
  unfold bswaps bswapl
  apply UInt16.eq_of_toBitVec_eq
  simp only [UInt16.toBitVec_or, UInt16.toBitVec_and, UInt16.toBitVec_shiftLeft, UInt16.toBitVec_shiftRight,
    UInt32.toBitVec_or, UInt32.toBitVec_and, UInt32.toBitVec_shiftLeft, UInt32.toBitVec_shiftRight,
    UInt32.toBitVec_toUInt16, UInt16.toBitVec_ofNat, UInt32.toBitVec_ofNat]
  ext i hi
  interval_cases i <;> simp

theorem bswaps_high (x : UInt32) : bswaps ((bswapl x >>> 16) &&& 0xffff).toUInt16 = x.toUInt16 := by
  unfold bswaps bswapl
  apply UInt16.eq_of_toBitVec_eq
  simp only [UInt16.toBitVec_or, UInt16.toBitVec_and, UInt16.toBitVec_shiftLeft, UInt16.toBitVec_shiftRight,
    UInt32.toBitVec_or, UInt32.toBitVec_and, UInt32.toBitVec_shiftLeft, UInt32.toBitVec_shiftRight,
    UInt32.toBitVec_toUInt16, UInt16.toBitVec_ofNat, UInt32.toBitVec_ofNat]
  ext i hi
  interval_cases i <;> simp

/-! ## The fold -/

theorem pseudoSum_lt (src dst : UInt32) (ipP : UInt8) : pseudoSum src dst ipP < 2 ^ 19 := by
  have hsrc := src.toNat_lt
  have hdst := dst.toNat_lt
  have hp := ipP.toNat_lt
  unfold pseudoSum
  omega

/-- **What is stored**: the sum, folded once and cut to 16 bits -/
theorem bswaps_tcpSum (src dst : UInt32) (ipP : UInt8) :
    (bswaps (tcpSum src dst ipP)).toNat =
      (pseudoSum src dst ipP / 2 ^ 16 + pseudoSum src dst ipP % 2 ^ 16) % 2 ^ 16 := by
  have hsum := pseudoSum_lt src dst ipP
  unfold tcpSum tcpPartialChecksum
  dsimp only
  rw [bswaps_bswaps, bswaps_low, bswaps_low, bswaps_high, bswaps_high]
  set pseudo := (0 : UInt32) + src.toUInt16.toUInt32 + (src >>> (16 : UInt32)).toUInt16.toUInt32 + dst.toUInt16.toUInt32 +
    (dst >>> (16 : UInt32)).toUInt16.toUInt32 + ipP.toUInt16.toUInt32 with hpseudo
  have hnat : pseudo.toNat = pseudoSum src dst ipP := by
    have hsrc := src.toNat_lt
    have hdst := dst.toNat_lt
    have hp := ipP.toNat_lt
    have hshift : UInt32.toNat 16 % 32 = 16 := rfl
    rw [hpseudo, pseudoSum]
    simp only [UInt32.toNat_toUInt16, UInt32.toNat_add, UInt32.toNat_shiftRight, UInt16.toNat_toUInt32,
      UInt8.toNat_toUInt16, UInt32.toNat_zero, Nat.shiftRight_eq_div_pow, hshift]
    have hhigh : ∀ x < 2 ^ 32, x / 2 ^ 16 % 2 ^ 16 = x / 2 ^ 16 := fun x hx => Nat.mod_eq_of_lt (by omega)
    rw [hhigh _ hsrc, hhigh _ hdst]
    simp (disch := omega) only [Nat.mod_eq_of_lt (b := 2 ^ 32)]
    omega
  have hmask : pseudo.toNat &&& UInt32.toNat 0xffff = pseudo.toNat % 2 ^ 16 := Nat.and_two_pow_sub_one_eq_mod _ 16
  have hshift : pseudo.toNat >>> (UInt32.toNat 16 % 32) = pseudo.toNat / 2 ^ 16 := Nat.shiftRight_eq_div_pow _ 16
  rw [UInt32.toNat_toUInt16, UInt32.toNat_add, UInt32.toNat_shiftRight, UInt32.toNat_and, hmask, hshift, hnat]
  omega

/-- One fold keeps the sum modulo 2^16 - 1 if and only if it leaves no carry. -/
theorem fold_modEq_iff {n : ℕ} (h : n < 2 ^ 19) :
    (n / 2 ^ 16 + n % 2 ^ 16) % 2 ^ 16 ≡ n [MOD 65535] ↔ n / 2 ^ 16 + n % 2 ^ 16 < 2 ^ 16 := by
  have hq : n / 2 ^ 16 < 8 := by omega
  have hr : n % 2 ^ 16 < 2 ^ 16 := Nat.mod_lt _ (by decide)
  have hn : n = 2 ^ 16 * (n / 2 ^ 16) + n % 2 ^ 16 := (Nat.div_add_mod n (2 ^ 16)).symm
  generalize n / 2 ^ 16 = q at *
  generalize n % 2 ^ 16 = r at *
  -- 2^16 is 1, so that n is the sum of its halves
  have hmod : n ≡ q + r [MOD 65535] := by
    have hq' : 2 ^ 16 * q ≡ q [MOD 65535] := by
      have hone : 2 ^ 16 ≡ 1 [MOD 65535] := rfl
      exact (hone.mul_right q).trans (by rw [one_mul])
    rw [hn]
    exact hq'.add_right r
  by_cases hlt : q + r < 2 ^ 16
  · rw [Nat.mod_eq_of_lt hlt]
    exact iff_of_true hmod.symm hlt
  · refine iff_of_false (fun h => ?_) hlt
    have hlost : (q + r) % 2 ^ 16 = q + r - 2 ^ 16 := by omega
    have hcarry := h.trans hmod
    rw [hlost, Nat.ModEq] at hcarry
    omega

/-! ## When the checksum completes -/

/-- **When the checksum completes**: if the sum has no carry left after it has been folded. -/
theorem completes_iff (card : Offload) (src dst : UInt32) (ipP : UInt8) :
    Completes card src dst ipP ↔
      pseudoSum src dst ipP / 2 ^ 16 + pseudoSum src dst ipP % 2 ^ 16 < 2 ^ 16 := by
  have hfold := fold_modEq_iff (pseudoSum_lt src dst ipP)
  rw [← bswaps_tcpSum] at hfold
  rw [← hfold]
  refine ⟨fun h => h.1, fun h => ⟨h, fun len words => ?_⟩⟩
  have hadd := (h.add_right len).add_right (words.map UInt16.toNat).sum
  exact (hadd.symm.add_right _).trans (card.complement _ len words)

/-- Between 255.255.255.255 and 255.255.255.252 the sum is 2^18 - 1 with the protocol, and 2 is stored instead
    of 3. -/
theorem carry_lost : ¬ Completes default 0xffffffff 0xfffffffc IPPROTO_TCP := by
  rw [completes_iff]
  decide

end Xv6.Kernel.PartialChecksum
