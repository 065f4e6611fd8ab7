/-
# File names

Names are built from text and a counter: `std::to_string`, `sprintf` with `%05`,
and `DirJoin` (`directory.cpp`).  The counter can be read back from its digits, so
different counters give different names; and as digits are no underscores, a crash
description followed by `_` and a counter determines both.
-/

import Jackalope.Coverage
import Mathlib.Data.Nat.Digits.Defs

namespace Jackalope

/-- The character of a digit. -/
def digit (d : ℕ) : UInt8 := UInt8.ofNat (48 + d)

/-- `std::to_string` of a number that is not negative. -/
def decimal (n : ℕ) : Bytes :=
  if n = 0 then [digit 0] else ((Nat.digits 10 n).map digit).reverse

/-- `sprintf("%05zu")`. -/
def decimal5 (n : ℕ) : Bytes :=
  List.replicate (5 - (decimal n).length) (digit 0) ++ decimal n

/-- The number that digits are the name of. -/
def numeral (digits : Bytes) : ℕ := digits.foldl (fun n b => 10 * n + (b.toNat - 48)) 0

/-- The characters of the ten digits follow each other.  -/
theorem digit_toNat {d : ℕ} (h : d < 10) : (digit d).toNat = 48 + d := by
  rw [digit, UInt8.toNat_ofNat']
  omega

/-- Digits are digits. -/
theorem mem_decimal {n : ℕ} {b : UInt8} (h : b ∈ decimal n) : ∃ d < 10, b = digit d := by
  unfold decimal at h
  split at h
  · exact ⟨0, by omega, List.mem_singleton.1 h⟩
  · rw [List.mem_reverse, List.mem_map] at h
    obtain ⟨d, hd, rfl⟩ := h
    exact ⟨d, Nat.digits_lt_base (by omega) hd, rfl⟩

/-- **A decimal number is read back from its text**, so no two numbers have one text, which
is why the names that end in a number are different.  -/
theorem numeral_decimal (n : ℕ) : numeral (decimal n) = n := by
  have key : ∀ ds : List ℕ, (∀ d ∈ ds, d < 10) →
      numeral (ds.map digit).reverse = Nat.ofDigits 10 ds := by
    intro ds
    induction ds with
    | nil => intro; rfl
    | cons d ds ih =>
        intro h
        have hd := digit_toNat (h d (by simp))
        have hds := ih fun x hx => h x (List.mem_cons_of_mem d hx)
        rw [List.map_cons, List.reverse_cons, numeral, List.foldl_append, ← numeral, hds,
          Nat.ofDigits_cons]
        simp only [List.foldl_cons, List.foldl_nil, hd]
        omega
  unfold decimal
  split
  · subst n
    rfl
  · rw [key _ fun d hd => Nat.digits_lt_base (by omega) hd, Nat.ofDigits_digits]

/-- So different numbers have different texts.  -/
theorem decimal_injective : Function.Injective decimal :=
  Function.LeftInverse.injective numeral_decimal

/-- The same with the zeros in front that `%05lld` prints, which add nothing to the number.
-/
theorem decimal5_injective : Function.Injective decimal5 := by
  refine Function.LeftInverse.injective (g := numeral) fun n => ?_
  have key : ∀ k, numeral (List.replicate k (digit 0) ++ decimal n) = n := by
    intro k
    induction k with
    | zero => exact numeral_decimal n
    | succ k ih => exact ih
  exact key _

/-- `DIR_SEPARATOR`. -/
def dirSeparator : UInt8 := 47

/-- `DirJoin`. -/
def dirJoin (dir1 dir2 : Bytes) : Bytes :=
  match dir1.getLast? with
  | none => dir2
  | some c => (if c = dirSeparator then dir1 else dir1 ++ [dirSeparator]) ++ dir2

/-- Different names in one directory are different paths. -/
theorem dirJoin_injective (dir1 : Bytes) : Function.Injective (dirJoin dir1) := by
  intro a b h
  unfold dirJoin at h
  split at h
  · exact h
  · exact List.append_cancel_left h

/-- `"sample_"` and the number, `%05`. -/
def sampleFilename (n : ℕ) : Bytes := str "sample_" ++ decimal5 n

/-- Different numbers, different files. -/
theorem sampleFilename_injective : Function.Injective sampleFilename := fun _ _ h =>
  decimal5_injective (List.append_cancel_left h)

/-- A decimal number has no null byte in its text, so it may stand in a C string.  -/
theorem nul_notMem_decimal (n : ℕ) : 0 ∉ decimal n := by
  intro h
  obtain ⟨d, hd, hb⟩ := mem_decimal h
  have htoNat := congrArg UInt8.toNat hb
  rw [digit_toNat hd, UInt8.toNat_zero] at htoNat
  omega

/-- The names are C strings: the fixed part and the digits have no 0 byte, so nothing of a
name is cut off.  -/
theorem nul_notMem_sampleFilename (n : ℕ) : 0 ∉ sampleFilename n := by
  intro h
  unfold sampleFilename decimal5 at h
  rcases List.mem_append.1 h with htext | hnumber
  · revert htext
    decide
  · rcases List.mem_append.1 hnumber with hzero | hdigit
    · have := List.eq_of_mem_replicate hzero
      revert this
      decide
    · exact nul_notMem_decimal n hdigit

/-- `'_'`. -/
def underscore : UInt8 := 95

/-- `crash_desc + "_" + std::to_string(duplicates)`. -/
def crashFilename (crashDesc : Bytes) (duplicates : ℕ) : Bytes :=
  crashDesc ++ underscore :: decimal duplicates

/-- Nor has it an underscore, so the number behind the last underscore of a name can be
found.  -/
theorem underscore_notMem_decimal (n : ℕ) : underscore ∉ decimal n := by
  intro h
  obtain ⟨d, hd, hb⟩ := mem_decimal h
  have := congrArg UInt8.toNat hb
  rw [digit_toNat hd] at this
  simp [underscore] at this
  omega

/-- What is before and behind the last occurrence of a value is determined, which is how a
name is taken apart again.  -/
theorem eq_of_append_cons_eq {α : Type*} {x : α} {a b s t : List α} (hs : x ∉ s) (ht : x ∉ t)
    (h : a ++ x :: s = b ++ x :: t) : a = b ∧ s = t := by
  rcases List.append_eq_append_iff.1 h with ⟨c, rfl, hc⟩ | ⟨c, rfl, hc⟩
  · rcases c with _ | ⟨y, c⟩
    · simpa using hc
    · obtain ⟨rfl, rfl⟩ := List.cons.inj hc
      exact absurd (by simp) hs
  · rcases c with _ | ⟨y, c⟩
    · simpa [eq_comm] using hc
    · obtain ⟨rfl, rfl⟩ := List.cons.inj hc
      exact absurd (by simp) ht

/-- **A crash file belongs to one description and one counter**, also when the
description itself ends in `_1`. -/
theorem crashFilename_inj {d e : Bytes} {j k : ℕ} :
    crashFilename d j = crashFilename e k ↔ d = e ∧ j = k := by
  constructor
  · intro h
    obtain ⟨rfl, hdec⟩ := eq_of_append_cons_eq (underscore_notMem_decimal j)
      (underscore_notMem_decimal k) h
    exact ⟨rfl, decimal_injective hdec⟩
  · rintro ⟨rfl, rfl⟩
    rfl

/-- A character that `CheckFilename` lets through. -/
def isNameChar (c : UInt8) : Bool :=
  (48 ≤ c && c ≤ 57) || (97 ≤ c && c ≤ 122) || (65 ≤ c && c ≤ 90) || c == 45 || c == underscore

/-- `CoverageServer::CheckFilename`. -/
def checkFilename (filename : Bytes) : Bool := filename.all isNameChar

/-- The counter does not bring in other characters: a name that passes for the description
passes with `_` and a number behind it.  -/
theorem checkFilename_crashFilename {d : Bytes} (h : checkFilename d = true) (k : ℕ) :
    checkFilename (crashFilename d k) = true := by
  have hdigit : ∀ d < 10, isNameChar (digit d) = true := by decide
  rw [checkFilename, List.all_eq_true] at h ⊢
  intro c hc
  rcases List.mem_append.1 hc with hc | hc
  · exact h c hc
  rcases List.mem_cons.1 hc with rfl | hc
  · rfl
  · obtain ⟨d, hd, rfl⟩ := mem_decimal hc
    exact hdigit d hd

end Jackalope
