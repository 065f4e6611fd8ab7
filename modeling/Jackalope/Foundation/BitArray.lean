/-
# Bits in a byte array

A set of indices stored one bit each: index `i` is bit `i % 8` of byte `i / 8`.
The operations are those of C code over such an array, a byte or an eight-byte
word at a time; each comes with the lemma that says which bits it changes.
-/

import Mathlib.Data.BitVec
import Mathlib.Tactic.IntervalCases

namespace Jackalope
namespace Foundation

/-- The bytes of the array. -/
abbrev BitArray := ℕ → BitVec 8

namespace BitArray

/-- Bit `i` of the array. -/
def bit (bits : BitArray) (i : ℕ) : Bool := (bits (i / 8)).getLsbD (i % 8)

/-- `bits[index / 8] |= 1 << (index % 8)`. -/
def set (bits : BitArray) (i : ℕ) : BitArray :=
  Function.update bits (i / 8) (bits (i / 8) ||| (1#8 <<< (i % 8)))

/-- `bits[index / 8] &= ~(1u << (index % 8))`. -/
def clear (bits : BitArray) (i : ℕ) : BitArray :=
  Function.update bits (i / 8) (bits (i / 8) &&& ~~~(1#8 <<< (i % 8)))

/-- `memset(bits, 0, size)`. -/
def zero (bits : BitArray) (size : ℕ) : BitArray := fun b => if b < size then 0 else bits b

/-- The little-endian eight-byte word at word index `k`. -/
def word (bits : BitArray) (k : ℕ) : BitVec 64 :=
  bits (8 * k + 7) ++ bits (8 * k + 6) ++ bits (8 * k + 5) ++ bits (8 * k + 4) ++
    bits (8 * k + 3) ++ bits (8 * k + 2) ++ bits (8 * k + 1) ++ bits (8 * k)

/-- The bit that a single shifted `1` selects. -/
theorem getLsbD_one_shiftLeft {k j : ℕ} (hk : k < 8) :
    (1#8 <<< k).getLsbD j = decide (j = k) := by
  show (BitVec.twoPow 8 k).getLsbD j = _
  rw [BitVec.getLsbD_twoPow, decide_eq_true hk, Bool.true_and]
  exact decide_eq_decide.2 eq_comm

/-- Setting a bit sets it and leaves the others, also where the array was too short to hold
it: bits that are not there are zero.  -/
theorem bit_set (bits : BitArray) (i j : ℕ) :
    (bits.set i).bit j = (decide (j = i) || bits.bit j) := by
  have hi : i % 8 < 8 := Nat.mod_lt _ (by decide)
  by_cases hb : j / 8 = i / 8
  · have heq : (j % 8 = i % 8) ↔ j = i := by omega
    rw [bit, set, hb, Function.update_self, BitVec.getLsbD_or, getLsbD_one_shiftLeft hi, bit, hb,
      decide_eq_decide.2 heq, Bool.or_comm]
  · have hne : ¬ j = i := fun h => hb (by rw [h])
    rw [bit, set, Function.update_of_ne hb, decide_eq_false hne, Bool.false_or, bit]

/-- Clearing a bit clears it and leaves the others, those of the same byte included,
whatever the bit was.  -/
theorem bit_clear (bits : BitArray) (i j : ℕ) :
    (bits.clear i).bit j = (!decide (j = i) && bits.bit j) := by
  have hi : i % 8 < 8 := Nat.mod_lt _ (by decide)
  have hj : j % 8 < 8 := Nat.mod_lt _ (by decide)
  by_cases hb : j / 8 = i / 8
  · have heq : (j % 8 = i % 8) ↔ j = i := by omega
    rw [bit, clear, hb, Function.update_self, BitVec.getLsbD_and, BitVec.getLsbD_not,
      getLsbD_one_shiftLeft hi, bit, hb, decide_eq_decide.2 heq, decide_eq_true hj, Bool.true_and,
      Bool.and_comm]
  · have hne : ¬ j = i := fun h => hb (by rw [h])
    rw [bit, clear, Function.update_of_ne hb, decide_eq_false hne, bit]
    simp

/-- Zeroing the first bytes clears the bits that are in them, eight for each byte, and
leaves the bits behind.  -/
theorem bit_zero (bits : BitArray) (size j : ℕ) :
    (bits.zero size).bit j = (decide (8 * size ≤ j) && bits.bit j) := by
  by_cases h : j / 8 < size
  · have hlt : ¬ 8 * size ≤ j := by omega
    simp [bit, zero, h, hlt]
  · have hle : 8 * size ≤ j := by omega
    simp [bit, zero, h, hle]

/-- Clearing several bits. -/
theorem bit_foldl_clear (l : List ℕ) (bits : BitArray) (j : ℕ) :
    (l.foldl clear bits).bit j = (!decide (j ∈ l) && bits.bit j) := by
  induction l generalizing bits with
  | nil => simp
  | cons i l ih =>
      rw [List.foldl_cons, ih, bit_clear]
      by_cases h : j = i <;> simp [h]

/-- A byte below others: its bits come first, and the bits above it are those of the others,
eight places further up.  -/
theorem getLsbD_append_byte {n q r : ℕ} (x : BitVec n) (y : BitVec 8) (hr : r < 8) :
    (x ++ y).getLsbD (8 * q + r) = if q = 0 then y.getLsbD r else x.getLsbD (8 * (q - 1) + r) := by
  rw [BitVec.getLsbD_append]
  by_cases hq : q = 0
  · subst hq
    rw [if_pos rfl, if_pos (by omega), Nat.mul_zero, Nat.zero_add]
  · rw [if_neg hq, if_neg (by omega)]
    congr 1
    omega

/-- The bits of a word are those of its eight bytes: bit `i` of the word `k` is the bit `64
* k + i` of the array.  -/
theorem getLsbD_word (bits : BitArray) (k : ℕ) {i : ℕ} (hi : i < 64) :
    (bits.word k).getLsbD i = bits.bit (64 * k + i) := by
  obtain ⟨q, r, hr, rfl⟩ : ∃ q r, r < 8 ∧ i = 8 * q + r :=
    ⟨i / 8, i % 8, Nat.mod_lt _ (by decide), by omega⟩
  have hbyte : (64 * k + (8 * q + r)) / 8 = 8 * k + q := by omega
  have hmod : (64 * k + (8 * q + r)) % 8 = r := by omega
  have hq : q < 8 := by omega
  rw [bit, hbyte, hmod, word]
  simp only [getLsbD_append_byte _ _ hr]
  clear hbyte hmod hi
  -- byte `q` is found after `q` tests
  interval_cases q
  all_goals simp

/-- **A word test finds the bits common to two arrays.** The conjunction of two words of 64
bits is not zero exactly if some bit of that word is set in both, so that a loop over words
can skip whatever has nothing in common.  -/
theorem word_and_ne_zero (a b : BitArray) (k : ℕ) :
    a.word k &&& b.word k ≠ 0 ↔ ∃ i < 64, a.bit (64 * k + i) ∧ b.bit (64 * k + i) := by
  rw [Ne, BitVec.eq_of_getLsbD_eq_iff]
  constructor
  · intro h
    by_contra hno
    refine h fun i hi => ?_
    rw [BitVec.getLsbD_and, getLsbD_word a k hi, getLsbD_word b k hi]
    rcases ha : a.bit (64 * k + i) with _ | _
    · simp
    · rcases hb : b.bit (64 * k + i) with _ | _
      · simp
      · exact absurd ⟨i, hi, ha, hb⟩ hno
  · rintro ⟨i, hi, ha, hb⟩ h
    have := h i hi
    rw [BitVec.getLsbD_and, getLsbD_word a k hi, getLsbD_word b k hi, ha, hb] at this
    simp at this

end BitArray

end Foundation
end Jackalope
