import Mathlib.Data.UInt
import Mathlib.Logic.Function.Basic

/-!
# Byte Blocks and Little-Endian Words

The contents of a piece of memory as a function from byte offset to byte, and
the 32-bit words stored in it in little-endian order. Storing a word and then
reading words back behaves as an array of words does:

- `word_setWord_self`: the stored word is read back;
- `word_setWord_of_ne`: every other word is unchanged.
-/

namespace Xv6.Lib

/-- Contents of a block of memory by byte offset. The length is the business of
    whoever owns the block: offsets past it are never read. -/
abbrev ByteBlock := ℕ → UInt8

namespace ByteBlock

/-- The block of zero bytes. -/
def zero : ByteBlock := fun _ => 0

/-- The `i`-th 32-bit little-endian word. -/
def word (b : ByteBlock) (i : ℕ) : ℕ :=
  (b (4 * i)).toNat + 256 * (b (4 * i + 1)).toNat + 65536 * (b (4 * i + 2)).toNat
    + 16777216 * (b (4 * i + 3)).toNat

/-- Store `v` as the `i`-th 32-bit little-endian word. -/
def setWord (b : ByteBlock) (i v : ℕ) : ByteBlock :=
  fun j => if j / 4 = i then UInt8.ofNat (v / 256 ^ (j % 4)) else b j

/-- Overwrite the bytes from `off` on, `n` of them, by those of `src`. -/
def blit (b : ByteBlock) (off n : ℕ) (src : ℕ → UInt8) : ByteBlock :=
  fun j => if off ≤ j ∧ j < off + n then src (j - off) else b j

/-! ## Words -/

theorem word_lt (b : ByteBlock) (i : ℕ) : b.word i < 2 ^ 32 := by
  have h0 := (b (4 * i)).toNat_lt
  have h1 := (b (4 * i + 1)).toNat_lt
  have h2 := (b (4 * i + 2)).toNat_lt
  have h3 := (b (4 * i + 3)).toNat_lt
  unfold word
  omega

@[simp] theorem word_zero (i : ℕ) : zero.word i = 0 := rfl

theorem word_setWord_self (b : ByteBlock) (i : ℕ) {v : ℕ} (hv : v < 2 ^ 32) :
    (b.setWord i v).word i = v := by
  have e0 : (4 * i) / 4 = i ∧ (4 * i) % 4 = 0 := by omega
  have e1 : (4 * i + 1) / 4 = i ∧ (4 * i + 1) % 4 = 1 := by omega
  have e2 : (4 * i + 2) / 4 = i ∧ (4 * i + 2) % 4 = 2 := by omega
  have e3 : (4 * i + 3) / 4 = i ∧ (4 * i + 3) % 4 = 3 := by omega
  simp only [word, setWord, e0, e1, e2, e3, if_true, UInt8.toNat_ofNat']
  omega

theorem word_setWord_of_ne (b : ByteBlock) {i k : ℕ} (v : ℕ) (h : k ≠ i) :
    (b.setWord i v).word k = b.word k := by
  have e0 : (4 * k) / 4 ≠ i := by omega
  have e1 : (4 * k + 1) / 4 ≠ i := by omega
  have e2 : (4 * k + 2) / 4 ≠ i := by omega
  have e3 : (4 * k + 3) / 4 ≠ i := by omega
  simp only [word, setWord, e0, e1, e2, e3, if_false]

theorem setWord_of_ne (b : ByteBlock) {i j : ℕ} (v : ℕ) (h : j / 4 ≠ i) :
    b.setWord i v j = b j := if_neg h

theorem setWord_word (b : ByteBlock) (i : ℕ) : b.setWord i (b.word i) = b := by
  funext j
  by_cases hj : j / 4 = i
  · have h0 := (b (4 * i)).toNat_lt
    have h1 := (b (4 * i + 1)).toNat_lt
    have h2 := (b (4 * i + 2)).toNat_lt
    have h3 := (b (4 * i + 3)).toNat_lt
    simp only [setWord, hj, if_true]
    apply UInt8.toNat_inj.mp
    rw [UInt8.toNat_ofNat']
    have hcases : j = 4 * i ∨ j = 4 * i + 1 ∨ j = 4 * i + 2 ∨ j = 4 * i + 3 := by omega
    rcases hcases with rfl | rfl | rfl | rfl
    · rw [show 4 * i % 4 = 0 by omega]; unfold word; omega
    · rw [show (4 * i + 1) % 4 = 1 by omega]; unfold word; omega
    · rw [show (4 * i + 2) % 4 = 2 by omega]; unfold word; omega
    · rw [show (4 * i + 3) % 4 = 3 by omega]; unfold word; omega
  · exact setWord_of_ne b _ hj

/-! ## Copies -/

theorem blit_of_mem (b : ByteBlock) {off n j : ℕ} (src : ℕ → UInt8)
    (h : off ≤ j ∧ j < off + n) : b.blit off n src j = src (j - off) := if_pos h

theorem blit_of_not_mem (b : ByteBlock) {off n j : ℕ} (src : ℕ → UInt8)
    (h : ¬ (off ≤ j ∧ j < off + n)) : b.blit off n src j = b j := if_neg h

end ByteBlock

end Xv6.Lib
