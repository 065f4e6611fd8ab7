/-
# Dictionaries

`InterestingValueMutator::DictUnescape` and `AddDictionary` (`mutator.cpp`, lines 240-306).
A line of a dictionary is a value in which `\xHH` stands for a byte.  Two loops share the
position in the line: the first looks for escapes as long as four characters are left, the
second copies what is behind it, and an escape at the end of the line takes the position
past the start of the second.

The output buffer has as many bytes as the line, and is written from the front; `none` is a
character read or written out of range, or a loop that does not end.  `decode` says what a
line stands for, and `dictUnescape_eq` that this is what the two loops make of it.
-/

import Jackalope.Sample
import Mathlib.Data.List.Forall2
import Mathlib.Data.List.Infix

namespace Jackalope
namespace Mutators

/-! ### The loops -/

/-- `isxdigit`, in the C locale. -/
def isxdigit (c : UInt8) : Bool := (48 ≤ c && c ≤ 57) || (65 ≤ c && c ≤ 70) || (97 ≤ c && c ≤ 102)

/-- The value of a hexadecimal digit. -/
def digitValue (c : UInt8) : ℕ :=
  if c ≤ 57 then c.toNat - 48 else if c ≤ 70 then c.toNat - 55 else c.toNat - 87

/-- `strtol(convert_buf, NULL, 16)`, for text that begins with a digit. -/
def strtol16 (convertBuf : Bytes) : ℕ :=
  (convertBuf.takeWhile isxdigit).foldl (fun value c => 16 * value + digitValue c) 0

/-- The condition of the first loop: `\xHH` begins at this position. -/
def escapeAt (inBuf : Bytes) (inPos : ℕ) : Option Bool := do
  let backslash ← inBuf[inPos]?
  if backslash ≠ 92 then some false
  else do
    let x ← inBuf[inPos + 1]?
    if x ≠ 120 then some false
    else do
      let high ← inBuf[inPos + 2]?
      if !isxdigit high then some false
      else do
        let low ← inBuf[inPos + 3]?
        some (isxdigit low)

/-- `out_buf[out_pos] = c; out_pos++`, where `out_buf` has been filled up to `out_pos`. -/
def putByte (size : ℕ) (outBuf : Bytes) (c : UInt8) : Option Bytes :=
  if outBuf.length < size then some (outBuf ++ [c]) else none

/-- `while (in_pos < (in_size - 3))`: the position, and what has been written. -/
def unescapeLoop (inBuf : Bytes) : ℕ → ℕ → Bytes → Option (ℕ × Bytes)
  | 0, _, _ => none
  | fuel + 1, inPos, outBuf =>
      if inPos < inBuf.length - 3 then do
        let escape ← escapeAt inBuf inPos
        if escape then do
          let high ← inBuf[inPos + 2]?
          let low ← inBuf[inPos + 3]?
          let outBuf ← putByte inBuf.length outBuf (UInt8.ofNat (strtol16 [high, low]))
          unescapeLoop inBuf fuel (inPos + 4) outBuf
        else do
          let c ← inBuf[inPos]?
          let outBuf ← putByte inBuf.length outBuf c
          unescapeLoop inBuf fuel (inPos + 1) outBuf
      else some (inPos, outBuf)

/-- `while (in_pos < in_size)`. -/
def copyLoop (inBuf : Bytes) : ℕ → ℕ → Bytes → Option Bytes
  | 0, _, _ => none
  | fuel + 1, inPos, outBuf =>
      if inPos < inBuf.length then do
        let c ← inBuf[inPos]?
        let outBuf ← putByte inBuf.length outBuf c
        copyLoop inBuf fuel (inPos + 1) outBuf
      else some outBuf

/-- `DictUnescape`. -/
def dictUnescape (inBuf : Bytes) : Option Bytes :=
  if inBuf.length < 4 then some inBuf
  else do
    let (inPos, outBuf) ← unescapeLoop inBuf (inBuf.length + 1) 0 []
    copyLoop inBuf (inBuf.length + 1) inPos outBuf

/-- The loop of `AddDictionary` over the lines of the file: `interesting_values` and
`values_added`. -/
def addDictionary : List Bytes → List Sample → ℕ → Option (List Sample × ℕ)
  | [], interestingValues, valuesAdded => some (interestingValues, valuesAdded)
  | line :: lines, interestingValues, valuesAdded =>
      if line = [] then addDictionary lines interestingValues valuesAdded
      else if ¬ ([92, 120] : Bytes) <:+: line then
        addDictionary lines (interestingValues ++ [Sample.init line]) (valuesAdded + 1)
      else do
        let unescaped ← dictUnescape line
        addDictionary lines (interestingValues ++ [Sample.init unescaped]) (valuesAdded + 1)

/-! ### What a line stands for -/

/-- The byte that the escape stands for with which the text begins, if it does. -/
def leadingEscape : Bytes → Option UInt8
  | backslash :: x :: high :: low :: _ =>
      if backslash = 92 ∧ x = 120 ∧ isxdigit high ∧ isxdigit low then
        some (UInt8.ofNat (16 * digitValue high + digitValue low))
      else none
  | _ => none

/-- The text with every escape replaced, from left to right. -/
def decode : Bytes → Bytes
  | [] => []
  | c :: text =>
      match leadingEscape (c :: text) with
      | some value => value :: decode (text.drop 3)
      | none => c :: decode text
  termination_by text => text.length
  decreasing_by
    · simp only [List.length_drop, List.length_cons]
      omega
    · simp only [List.length_cons]
      omega

/-- The text writes the byte as an escape, with digits of either case. -/
def IsEscapeOf (text : Bytes) (b : UInt8) : Prop :=
  ∃ high low, text = [92, 120, high, low] ∧ isxdigit high ∧ isxdigit low ∧
    16 * digitValue high + digitValue low = b.toNat

/-- Nothing stands for nothing.  -/
theorem decode_nil : decode [] = [] := by rw [decode]

/-- An escape stands for its byte, and four characters are read.  -/
theorem decode_of_escape {c value : UInt8} {text : Bytes}
    (h : leadingEscape (c :: text) = some value) :
    decode (c :: text) = value :: decode (text.drop 3) := by
  rw [decode, h]

/-- Any other character stands for itself.  -/
theorem decode_of_plain {c : UInt8} {text : Bytes} (h : leadingEscape (c :: text) = none) :
    decode (c :: text) = c :: decode text := by
  rw [decode, h]

/-- An escape has four characters, so the loop over the first characters need not look at
the last three.  -/
theorem leadingEscape_of_length_lt {text : Bytes} (h : text.length < 4) :
    leadingEscape text = none := by
  rcases text with _ | ⟨a, _ | ⟨b, _ | ⟨c, _ | ⟨d, text⟩⟩⟩⟩
  · rfl
  · rfl
  · rfl
  · rfl
  · simp only [List.length_cons] at h
    omega

/-- An escape begins with `\x`; any other text is copied as it stands.  -/
theorem leadingEscape_of_not_isPrefix {text : Bytes} (h : ¬ ([92, 120] : Bytes) <+: text) :
    leadingEscape text = none := by
  rcases text with _ | ⟨a, _ | ⟨b, _ | ⟨c, _ | ⟨d, text⟩⟩⟩⟩
  · rfl
  · rfl
  · rfl
  · rfl
  · rw [leadingEscape, if_neg]
    rintro ⟨rfl, rfl, -⟩
    exact h ⟨c :: d :: text, rfl⟩

/-- What has no escape anywhere stands for itself. -/
theorem decode_of_length_lt {text : Bytes} (h : text.length < 4) : decode text = text := by
  induction text with
  | nil => exact decode_nil
  | cons c text ih =>
      rw [decode_of_plain (leadingEscape_of_length_lt h), ih (by
        rw [List.length_cons] at h
        omega)]

/-- **A line without `\x` stands for itself**, which is the shortcut that the code takes.
-/
theorem decode_of_not_infix {text : Bytes} (h : ¬ ([92, 120] : Bytes) <:+: text) :
    decode text = text := by
  induction text with
  | nil => exact decode_nil
  | cons c text ih =>
      have hprefix : ¬ ([92, 120] : Bytes) <+: c :: text := fun hp => h hp.isInfix
      have htail : ¬ ([92, 120] : Bytes) <:+: text := fun hi =>
        h (hi.trans (List.suffix_cons c text).isInfix)
      rw [decode_of_plain (leadingEscape_of_not_isPrefix hprefix), ih htail]

/-- **Round trip**: bytes that are all written as escapes are read back, with digits in
either case.  -/
theorem decode_flatten {texts : List Bytes} {b : Bytes} (h : List.Forall₂ IsEscapeOf texts b) :
    decode texts.flatten = b := by
  induction h with
  | nil => exact decode_nil
  | @cons text c texts b hc _ ih =>
      obtain ⟨high, low, rfl, hhigh, hlow, hvalue⟩ := hc
      have hlead : leadingEscape (92 :: 120 :: high :: low :: texts.flatten) = some c := by
        rw [leadingEscape, if_pos ⟨rfl, rfl, hhigh, hlow⟩, hvalue, UInt8.ofNat_toNat]
      show decode (92 :: 120 :: high :: low :: texts.flatten) = c :: b
      rw [decode_of_escape hlead]
      exact congrArg (c :: ·) ih

/-- `0123456789abcdef`. -/
def hexCharacter (n : ℕ) : UInt8 := UInt8.ofNat (if n < 10 then 48 + n else 87 + n)

/-- The characters that are written are digits, and stand for their number.  -/
theorem hexCharacter_spec :
    ∀ n < 16, isxdigit (hexCharacter n) ∧ digitValue (hexCharacter n) = n := by decide

/-- Every byte can be written as an escape. -/
theorem exists_isEscapeOf (b : UInt8) : ∃ text, IsEscapeOf text b := by
  have hb : b.toNat < 256 := b.toNat_lt
  obtain ⟨hhigh, hhighValue⟩ := hexCharacter_spec (b.toNat / 16) (by omega)
  obtain ⟨hlow, hlowValue⟩ := hexCharacter_spec (b.toNat % 16) (by omega)
  refine ⟨_, hexCharacter (b.toNat / 16), hexCharacter (b.toNat % 16), rfl, hhigh, hlow, ?_⟩
  rw [hhighValue, hlowValue]
  omega

/-- Every byte has an escape, so every string has a text that stands for it.  -/
theorem exists_forall₂_isEscapeOf (b : Bytes) : ∃ texts, List.Forall₂ IsEscapeOf texts b := by
  induction b with
  | nil => exact ⟨[], List.Forall₂.nil⟩
  | cons c b ih =>
      obtain ⟨text, hc⟩ := exists_isEscapeOf c
      obtain ⟨texts, hb⟩ := ih
      exact ⟨text :: texts, List.Forall₂.cons hc hb⟩

/-! ### The loops make of a line what it stands for -/

/-- The first two characters of `convert_buf` are digits. -/
theorem strtol16_pair {high low : UInt8} (hhigh : isxdigit high) (hlow : isxdigit low) :
    strtol16 [high, low] = 16 * digitValue high + digitValue low := by
  have htake : [high, low].takeWhile isxdigit = [high, low] := by
    rw [List.takeWhile_cons_of_pos hhigh, List.takeWhile_cons_of_pos hlow, List.takeWhile_nil]
  rw [strtol16, htake]
  show 16 * (16 * 0 + digitValue high) + digitValue low = _
  omega

/-- Four characters are left at a position of the first loop, so its four reads are within
the line.  -/
theorem exists_four {inBuf : Bytes} {inPos : ℕ} (h : inPos < inBuf.length - 3) :
    ∃ c₀ c₁ c₂ c₃, inBuf[inPos]? = some c₀ ∧ inBuf[inPos + 1]? = some c₁ ∧
      inBuf[inPos + 2]? = some c₂ ∧ inBuf[inPos + 3]? = some c₃ ∧
      inBuf.drop inPos = c₀ :: c₁ :: c₂ :: c₃ :: inBuf.drop (inPos + 4) := by
  have h₀ : inPos < inBuf.length := by omega
  have h₁ : inPos + 1 < inBuf.length := by omega
  have h₂ : inPos + 2 < inBuf.length := by omega
  have h₃ : inPos + 3 < inBuf.length := by omega
  refine ⟨inBuf[inPos], inBuf[inPos + 1], inBuf[inPos + 2], inBuf[inPos + 3],
    List.getElem?_eq_getElem h₀, List.getElem?_eq_getElem h₁, List.getElem?_eq_getElem h₂,
    List.getElem?_eq_getElem h₃, ?_⟩
  rw [List.drop_eq_getElem_cons h₀, List.drop_eq_getElem_cons h₁, List.drop_eq_getElem_cons h₂,
    List.drop_eq_getElem_cons h₃]

/-- The condition of the first loop is that an escape begins at the position. -/
theorem escapeAt_eq {inBuf : Bytes} {inPos : ℕ} (h : inPos < inBuf.length - 3) :
    escapeAt inBuf inPos = some (leadingEscape (inBuf.drop inPos)).isSome := by
  obtain ⟨c₀, c₁, c₂, c₃, h₀, h₁, h₂, h₃, hdrop⟩ := exists_four h
  rw [hdrop, leadingEscape, escapeAt, h₀]
  by_cases hback : c₀ = 92
  · by_cases hx : c₁ = 120
    · cases hhigh : isxdigit c₂ <;> cases hlow : isxdigit c₃ <;>
        simp [hback, hx, h₁, h₂, h₃, hhigh, hlow]
    · simp [hback, hx, h₁]
  · simp [hback]

/-- A byte is put behind those that are there, as long as the buffer has room.  -/
theorem putByte_eq {size : ℕ} {outBuf : Bytes} (h : outBuf.length < size) (c : UInt8) :
    putByte size outBuf c = some (outBuf ++ [c]) := if_pos h

/-- The first loop leaves the second to copy what stands for itself.  Never has more been
written than read. -/
theorem unescapeLoop_spec (inBuf : Bytes) (fuel inPos : ℕ) (outBuf : Bytes)
    (hpos : inPos ≤ inBuf.length) (hout : outBuf.length ≤ inPos)
    (hfuel : inBuf.length < inPos + fuel) :
    ∃ inPos' outBuf', unescapeLoop inBuf fuel inPos outBuf = some (inPos', outBuf') ∧
      inPos' ≤ inBuf.length ∧ inBuf.length - 3 ≤ inPos' ∧ outBuf'.length ≤ inPos' ∧
      outBuf' ++ inBuf.drop inPos' = outBuf ++ decode (inBuf.drop inPos) := by
  induction fuel generalizing inPos outBuf with
  | zero => omega
  | succ fuel ih =>
      rw [unescapeLoop]
      by_cases hlt : inPos < inBuf.length - 3
      · obtain ⟨c₀, c₁, c₂, c₃, h₀, h₁, h₂, h₃, hdrop⟩ := exists_four hlt
        rw [if_pos hlt, escapeAt_eq hlt]
        rcases hlead : leadingEscape (inBuf.drop inPos) with _ | value
        · have hnext : inBuf.drop (inPos + 1) = c₁ :: c₂ :: c₃ :: inBuf.drop (inPos + 4) := by
            rw [← List.drop_drop, hdrop]
            rfl
          obtain ⟨inPos', outBuf', hloop, hpos', hend, hout', heq⟩ :=
            ih (inPos + 1) (outBuf ++ [c₀]) (by omega) (by
              rw [List.length_append, List.length_singleton]
              omega) (by omega)
          refine ⟨inPos', outBuf', ?_, hpos', hend, hout', ?_⟩
          · simp only [Option.isSome_none, h₀, putByte_eq (show outBuf.length < inBuf.length by omega),
              Option.bind_eq_bind, Option.bind_some, hloop, Bool.false_eq_true, if_false]
          · rw [heq, hdrop, decode_of_plain (by rw [← hdrop, hlead]), hnext, List.append_assoc,
              List.singleton_append]
        · have hvalue : value = UInt8.ofNat (strtol16 [c₂, c₃]) := by
            rw [hdrop, leadingEscape] at hlead
            split at hlead
            · rename_i hescape
              rw [strtol16_pair hescape.2.2.1 hescape.2.2.2]
              exact (Option.some.inj hlead).symm
            · cases hlead
          obtain ⟨inPos', outBuf', hloop, hpos', hend, hout', heq⟩ :=
            ih (inPos + 4) (outBuf ++ [value]) (by omega) (by
              rw [List.length_append, List.length_singleton]
              omega) (by omega)
          refine ⟨inPos', outBuf', ?_, hpos', hend, hout', ?_⟩
          · simp only [Option.isSome_some, h₂, h₃, ← hvalue,
              putByte_eq (show outBuf.length < inBuf.length by omega), Option.bind_eq_bind,
              Option.bind_some, hloop, if_true]
          · rw [heq, hdrop, decode_of_escape (by rw [← hdrop, hlead]), List.append_assoc,
              List.singleton_append]
            rfl
      · rw [if_neg hlt]
        refine ⟨inPos, outBuf, rfl, hpos, by omega, hout, ?_⟩
        rw [decode_of_length_lt]
        rw [List.length_drop]
        omega

/-- The second loop copies what is left, the last bytes, which are too few for an escape
sequence, and never writes beyond what it has read.  -/
theorem copyLoop_spec (inBuf : Bytes) (fuel inPos : ℕ) (outBuf : Bytes)
    (hpos : inPos ≤ inBuf.length) (hout : outBuf.length ≤ inPos)
    (hfuel : inBuf.length < inPos + fuel) :
    copyLoop inBuf fuel inPos outBuf = some (outBuf ++ inBuf.drop inPos) := by
  induction fuel generalizing inPos outBuf with
  | zero => omega
  | succ fuel ih =>
      rw [copyLoop]
      by_cases hlt : inPos < inBuf.length
      · have hget : inBuf[inPos]? = some inBuf[inPos] := List.getElem?_eq_getElem hlt
        have hput := putByte_eq (show outBuf.length < inBuf.length by omega) inBuf[inPos]
        have hrest := ih (inPos + 1) (outBuf ++ [inBuf[inPos]]) (by omega) (by
          rw [List.length_append, List.length_singleton]
          omega) (by omega)
        simp only [if_pos hlt, hget, hput, Option.bind_eq_bind, Option.bind_some, hrest]
        rw [List.drop_eq_getElem_cons hlt, List.append_assoc, List.singleton_append]
      · rw [if_neg hlt, List.drop_of_length_le (by omega), List.append_nil]

/-- **`DictUnescape` is the decoding**, for every string: both loops end, nothing is read or
written out of range. -/
theorem dictUnescape_eq (inBuf : Bytes) : dictUnescape inBuf = some (decode inBuf) := by
  rw [dictUnescape]
  split
  · rename_i hshort
    rw [decode_of_length_lt hshort]
  · obtain ⟨inPos, outBuf, hloop, hpos, -, hout, heq⟩ :=
      unescapeLoop_spec inBuf (inBuf.length + 1) 0 [] (Nat.zero_le _) (Nat.zero_le _) (by omega)
    rw [hloop]
    show copyLoop inBuf (inBuf.length + 1) inPos outBuf = _
    rw [copyLoop_spec inBuf _ inPos outBuf hpos hout (by omega), heq]
    rfl

/-- What `AddDictionary` adds for each line: its decoded value, behind the values that are
there and in the order of the lines; empty lines add nothing.  -/
theorem addDictionary_eq (lines : List Bytes) (interestingValues : List Sample) (valuesAdded : ℕ) :
    addDictionary lines interestingValues valuesAdded =
      some (interestingValues ++ (lines.filter (· ≠ [])).map fun line => Sample.init (decode line),
        valuesAdded + (lines.filter (· ≠ [])).length) := by
  induction lines generalizing interestingValues valuesAdded with
  | nil => simp [addDictionary]
  | cons line lines ih =>
      rw [addDictionary]
      by_cases hempty : line = []
      · rw [if_pos hempty, ih, List.filter_cons_of_neg (by simpa using hempty)]
      rw [if_neg hempty, List.filter_cons_of_pos (by simpa using hempty), List.map_cons,
        List.length_cons]
      by_cases hpattern : ¬ ([92, 120] : Bytes) <:+: line
      · rw [if_pos hpattern, ih, decode_of_not_infix hpattern, List.append_assoc,
          List.singleton_append, Nat.add_assoc, Nat.add_comm 1]
      · rw [if_neg hpattern, dictUnescape_eq]
        show addDictionary lines _ _ = _
        rw [ih, List.append_assoc, List.singleton_append, Nat.add_assoc, Nat.add_comm 1]

/-- **Unescaping is exact.**  Every string is decoded, from left to right; every byte string
can be written with escapes alone, and is what unescaping gives back for every such text; and
for a line without `\x`, which `AddDictionary` adds as it is, unescaping would make no
difference, so that what it adds for every line that is not empty is the decoded line. -/
theorem dictUnescape_exact :
    (∀ inBuf, dictUnescape inBuf = some (decode inBuf)) ∧
      (∀ b, ∃ texts, List.Forall₂ IsEscapeOf texts b) ∧
      (∀ texts b, List.Forall₂ IsEscapeOf texts b → dictUnescape texts.flatten = some b) ∧
      (∀ line, ¬ ([92, 120] : Bytes) <:+: line → dictUnescape line = some line) ∧
      ∀ lines interestingValues, addDictionary lines interestingValues 0 =
        some (interestingValues ++ (lines.filter (· ≠ [])).map fun line => Sample.init (decode line),
          (lines.filter (· ≠ [])).length) := by
  refine ⟨dictUnescape_eq, exists_forall₂_isEscapeOf, fun texts b h => ?_, fun line h => ?_,
    fun lines interestingValues => ?_⟩
  · rw [dictUnescape_eq, decode_flatten h]
  · rw [dictUnescape_eq, decode_of_not_infix h]
  · rw [addDictionary_eq, Nat.zero_add]

/-- A broken escape, an escape that ends the line, and a digit of either case. -/
example : dictUnescape [92, 120, 52, 92, 120, 52, 97, 92, 120, 70, 102] = some [92, 120, 52, 74, 255] := by
  decide

end Mutators
end Jackalope
