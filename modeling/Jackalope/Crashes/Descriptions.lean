/-
# What crashes are called

Crashes are told apart by their descriptions alone: by the tables of the fuzzer and the
server, and in the names of the files.  A description holds addresses, and from one run
of the target to the next an address moves by whole pages, so `AnonymizeAddress` keeps
only the last three of its hex digits, and how many there are.

Here are the descriptions of both instrumentations: from an exception (`tinyInstName`),
from the status of the child and from the report that the sanitizer wrote (`sanCovName`).
`asanDesc_eq_iff` and `tinyInstName_eq_iff` say exactly when two of them are one, and
`checkFilename_crashDescription` that the server lets all of them through.
-/

import Jackalope.Crashes.Reports
import Mathlib.Data.List.TakeWhile
import Mathlib.Data.Nat.Digits.Lemmas

namespace Jackalope
namespace Crashes

/-! ### Addresses -/

/-- The character of a hex digit. -/
def hexDigit (d : ℕ) : UInt8 := if d < 10 then digit d else UInt8.ofNat (87 + d)

/-- The digits of a number that is not zero. -/
def hexadecimal (n : ℕ) : Bytes := ((Nat.digits 16 n).map hexDigit).reverse

/-- `sprintf("%p")`. -/
def formatPointer (addr : ℕ) : Bytes :=
  if addr = 0 then str "(nil)" else str "0x" ++ hexadecimal addr

/-- `'0'` and `'x'`. -/
def zeroChar : UInt8 := 48

def xChar : UInt8 := 120

/-- The part of `AnonymizeAddress` behind `sprintf`. -/
def anonymize (buf : Bytes) : Bytes :=
  if buf = str "(nil)" then str "0"
  else
    let addrStart := if buf[0]? = some zeroChar ∧ (buf[1]? = some xChar ∨ buf[1]? = some 88) then 2 else 0
    let firstnonzero := addrStart + (buf.drop addrStart).findIdx (· ≠ zeroChar)
    (List.range' firstnonzero (buf.length - 3 - firstnonzero)).foldl (fun buf i => buf.set i xChar) buf

/-- `Instrumentation::AnonymizeAddress`. -/
def anonymizeAddress (addr : ℕ) : Bytes := anonymize (formatPointer addr)

/-! ### Descriptions -/

/-- `LiteCov::ExceptionType`, as far as it is told apart. -/
inductive ExceptionType
  | accessViolation
  | illegalInstruction
  | stackOverflow
  | other

/-- The name of the type. -/
def ExceptionType.name : ExceptionType → Bytes
  | .accessViolation => str "access_violation"
  | .illegalInstruction => str "illegal_instruction"
  | .stackOverflow => str "stack_overflow"
  | .other => str "other"

/-- `TinyInstInstrumentation::GetCrashName`, for the last exception. -/
def tinyInstName (type : ExceptionType) (ip accessAddress : ℕ) : Bytes :=
  type.name ++ str "_" ++ anonymizeAddress ip ++ str "_" ++ anonymizeAddress accessAddress

/-- `strstr`: the rest of the text from the first occurrence on. -/
def strstr (text pattern : Bytes) : Option Bytes := text.tails.find? pattern.isPrefixOf

/-- `isalnum`. -/
def isAlnum (c : UInt8) : Bool :=
  (48 ≤ c && c ≤ 57) || (97 ≤ c && c ≤ 122) || (65 ≤ c && c ≤ 90)

/-- The value of a hex digit in either case. -/
def hexVal (c : UInt8) : Option ℕ :=
  if 48 ≤ c ∧ c ≤ 57 then some (c.toNat - 48)
  else if 97 ≤ c ∧ c ≤ 102 then some (c.toNat - 87)
  else if 65 ≤ c ∧ c ≤ 70 then some (c.toNat - 55)
  else none

/-- The number with these digits. -/
def hexValue (digits : Bytes) : ℕ := digits.foldl (fun n c => 16 * n + (hexVal c).getD 0) 0

/-- `strtoul` to base 16, of a text that begins with `0x`; it stops at the first character
that is no digit, and beyond an `unsigned long` it returns the largest. -/
def strtoul16 (text : Bytes) : ℕ :=
  min (hexValue ((text.drop 2).takeWhile fun c => (hexVal c).isSome)) (2 ^ 64 - 1)

/-- `SanCovInstrumentation::GetAsanCrashDesc`: the report, if it could be opened, and
`GetTimeStr`. -/
def getAsanCrashDesc (report : Option Bytes) (time : ℕ) : Bytes :=
  match report with
  | none => str "ASAN_" ++ decimal time
  | some content =>
      -- as a C string
      let buf := content.takeWhile (· ≠ 0)
      let reason :=
        if (strstr buf (str "AddressSanitizer: stack-overflow on address")).isSome then
          str "stack-overflow_"
        else []
      match strstr buf (str "pc 0x") with
      | none => str "ASAN_" ++ reason ++ decimal time
      | some pc =>
          let hex := pc.drop 3
          let token := hex.take (2 + ((hex.drop 2).takeWhile isAlnum).length)
          str "ASAN_" ++ reason ++ anonymizeAddress (strtoul16 token)

/-- How a crash of the child ended in `SanCovInstrumentation::Run`. -/
inductive ChildCrash
  /-- `waitpid` did not succeed, or the status could not be read. -/
  | unexpectedError
  | signaled (signal : ℕ)
  /-- It exited with `ASAN_EXIT_STATUS`. -/
  | asan (report : Option Bytes)
  | exited

/-- The `crash_description` of `SanCovInstrumentation`, at this time. -/
def sanCovName (crash : ChildCrash) (time : ℕ) : Bytes :=
  match crash with
  | .unexpectedError => str "unexpected_error_" ++ decimal time
  | .signaled signal => str "signal_" ++ decimal signal ++ str "_" ++ decimal time
  | .asan report => getAsanCrashDesc report time
  | .exited => str "unexpected_exit_" ++ decimal time

/-! ### Which addresses are one -/

/-- Overwriting a part, one place after the other, leaves what is before it and what is
behind it, and the new byte in all places between.  -/
theorem foldl_set_range' (x : UInt8) (k : ℕ) {first : ℕ} {buf : Bytes}
    (h : first + k ≤ buf.length) :
    (List.range' first k).foldl (fun buf i => buf.set i x) buf =
      buf.take first ++ List.replicate k x ++ buf.drop (first + k) := by
  induction k generalizing first buf with
  | zero => simp
  | succ k ih =>
      rw [List.range'_succ, List.foldl_cons, ih (by rw [List.length_set]; omega),
        List.take_succ_eq_append_getElem (by rw [List.length_set]; omega), List.getElem_set_self,
        List.take_set_of_le le_rfl, List.drop_set_of_lt (by omega), List.replicate_succ,
        show first + 1 + k = first + (k + 1) by omega]
      simp

/-- The sixteen digits are different characters, so a digit can be read back from its
character.  -/
theorem hexDigit_injOn {d e : ℕ} (hd : d < 16) (he : e < 16) (h : hexDigit d = hexDigit e) :
    d = e := by
  have hall : ∀ d < 16, ∀ e < 16, hexDigit d = hexDigit e → d = e := by decide
  exact hall d hd e he h

/-- So a list of digits can be read back from its text, character by character.  -/
theorem map_hexDigit_injOn {ds es : List ℕ} (hd : ∀ d ∈ ds, d < 16) (he : ∀ e ∈ es, e < 16)
    (h : ds.map hexDigit = es.map hexDigit) : ds = es := by
  induction ds generalizing es with
  | nil => exact (List.map_eq_nil_iff.1 h.symm).symm
  | cons d ds ih =>
      obtain _ | ⟨e, es⟩ := es
      · exact absurd h (by simp)
      rw [List.map_cons, List.map_cons] at h
      obtain ⟨hhead, htail⟩ := List.cons.inj h
      rw [hexDigit_injOn (hd d (by simp)) (he e (by simp)) hhead,
        ih (fun x hx => hd x (List.mem_cons_of_mem d hx))
          (fun x hx => he x (List.mem_cons_of_mem e hx)) htail]

/-- Only the digit zero is printed as `0`. It is what tells `0x0`, the text of a null
address, from every other one.  -/
theorem hexDigit_ne_zeroChar {d : ℕ} (hd : d < 16) (hpos : d ≠ 0) : hexDigit d ≠ zeroChar := by
  revert d
  decide

/-- The text of `%x` has one character for each digit; for zero, which has no digits here,
it is empty.  -/
theorem length_hexadecimal (n : ℕ) : (hexadecimal n).length = (Nat.digits 16 n).length := by
  rw [hexadecimal, List.length_reverse, List.length_map]

/-- The digits begin with one that is not zero, so the search for the first such digit stops
where it begins.  -/
theorem findIdx_hexadecimal {n : ℕ} (hn : n ≠ 0) : (hexadecimal n).findIdx (· ≠ zeroChar) = 0 := by
  have hne : Nat.digits 16 n ≠ [] := Nat.digits_ne_nil_iff_ne_zero.2 hn
  have hlast := Nat.getLast_digit_ne_zero 16 hn
  have hlt := Nat.digits_lt_base (b := 16) (by omega) (List.getLast_mem hne)
  have hhead : hexadecimal n = hexDigit ((Nat.digits 16 n).getLast hne) ::
      ((Nat.digits 16 n).dropLast.map hexDigit).reverse := by
    rw [hexadecimal]
    conv_lhs => rw [← List.dropLast_append_getLast hne]
    simp
  rw [hhead, List.findIdx_cons, decide_eq_true (hexDigit_ne_zeroChar hlt hlast), cond_true]

/-- **What is left of an address.** `AnonymizeAddress` prints the address in hexadecimal and
puts an `x` over every digit but the last three, so the name keeps the number of digits and
the place in the page.  The address 0 has no digits in `Nat.digits` and is left out here.
-/
theorem anonymizeAddress_eq {n : ℕ} (hn : n ≠ 0) : anonymizeAddress n =
    str "0x" ++ List.replicate ((Nat.digits 16 n).length - 3) xChar ++
      (hexadecimal n).drop ((Nat.digits 16 n).length - 3) := by
  have hbuf : formatPointer n = zeroChar :: xChar :: hexadecimal n := by
    rw [formatPointer, if_neg hn]
    rfl
  have hnil : formatPointer n ≠ str "(nil)" := by
    rw [hbuf]
    intro h
    exact absurd (List.cons.inj h).1 (by decide)
  have hlength : (formatPointer n).length = 2 + (Nat.digits 16 n).length := by
    rw [hbuf, List.length_cons, List.length_cons, length_hexadecimal]
    omega
  rw [anonymizeAddress, anonymize, if_neg hnil]
  dsimp only
  rw [if_pos (by rw [hbuf]; exact ⟨rfl, Or.inl rfl⟩), show (formatPointer n).drop 2 = hexadecimal n by
    rw [hbuf]; rfl, findIdx_hexadecimal hn, Nat.add_zero, hlength,
    show 2 + (Nat.digits 16 n).length - 3 - 2 = (Nat.digits 16 n).length - 3 by omega,
    foldl_set_range' _ _ (by omega), hbuf, Nat.add_comm 2]
  rfl

/-- The last three digits are those of the offset in the page. -/
theorem drop_hexadecimal (n : ℕ) : (hexadecimal n).drop ((Nat.digits 16 n).length - 3) =
    (((Nat.digits 16 n).take 3).map hexDigit).reverse := by
  rw [hexadecimal, List.drop_reverse, List.length_map, ← List.map_take]
  congr 2
  by_cases hlength : 3 ≤ (Nat.digits 16 n).length
  · rw [Nat.sub_sub_self hlength]
  · rw [List.take_of_length_le (by omega), List.take_of_length_le (by omega)]

/-- An address that is not null is printed with `0x` in front and the digits that are kept,
in place of those that are not, so its length does not depend on the part that is hidden.
-/
theorem length_anonymizeAddress {n : ℕ} (hn : n ≠ 0) :
    (anonymizeAddress n).length = 2 + (Nat.digits 16 n).length := by
  rw [anonymizeAddress_eq hn, List.length_append, List.length_append, List.length_replicate,
    List.length_drop, length_hexadecimal, show (str "0x").length = 2 from rfl]
  omega

/-- A number that is not zero has a digit.  -/
theorem length_digits_pos {n : ℕ} (hn : n ≠ 0) : 0 < (Nat.digits 16 n).length :=
  List.length_pos_iff.2 (Nat.digits_ne_nil_iff_ne_zero.2 hn)

/-- The null pointer has a name of its own. -/
theorem anonymizeAddress_ne_zero {n : ℕ} (hn : n ≠ 0) : anonymizeAddress n ≠ anonymizeAddress 0 := by
  intro h
  have hlength := length_anonymizeAddress hn
  rw [h, show (anonymizeAddress 0).length = 1 by decide] at hlength
  omega

/-- For two addresses with equally many digits, the last three digits are the same exactly
where the place in the page is: three hexadecimal digits are a number below 4096. -/
theorem map_take_digits_iff {a b : ℕ} (hlength : (Nat.digits 16 a).length = (Nat.digits 16 b).length) :
    ((Nat.digits 16 a).take 3).map hexDigit = ((Nat.digits 16 b).take 3).map hexDigit ↔
      a % 4096 = b % 4096 := by
  have hmod : ∀ n, n % 4096 = Nat.ofDigits 16 ((Nat.digits 16 n).take 3) := fun n =>
    Nat.self_mod_pow_eq_ofDigits_take 3 n (show 2 ≤ 16 by omega)
  have hlt : ∀ n, ∀ d ∈ (Nat.digits 16 n).take 3, d < 16 := fun n d hd =>
    Nat.digits_lt_base (by omega) (List.mem_of_mem_take hd)
  rw [hmod, hmod]
  constructor
  · intro h
    rw [map_hexDigit_injOn (hlt a) (hlt b) h]
  · intro h
    rw [Nat.ofDigits_inj_of_len_eq (show 1 < 16 by omega)
      (by rw [List.length_take, List.length_take, hlength]) (hlt a) (hlt b) h]

/-- **Addresses that get one name.** Two program counters are not told apart exactly where
they have as many digits and lie at the same place in their pages.  This is what keeps a
crash under one name when the module is loaded elsewhere, and what merges crashes at the
same offset of different pages.  -/
theorem anonymizeAddress_eq_iff (a b : ℕ) : anonymizeAddress a = anonymizeAddress b ↔
    (Nat.digits 16 a).length = (Nat.digits 16 b).length ∧ a % 4096 = b % 4096 := by
  by_cases ha : a = 0
  · subst ha
    by_cases hb : b = 0
    · subst hb
      exact iff_of_true rfl ⟨rfl, rfl⟩
    · refine iff_of_false (anonymizeAddress_ne_zero hb).symm fun h => ?_
      exact absurd h.1 (length_digits_pos hb).ne
  by_cases hb : b = 0
  · subst hb
    refine iff_of_false (anonymizeAddress_ne_zero ha) fun h => ?_
    exact absurd h.1 (length_digits_pos ha).ne'
  constructor
  · intro h
    have hlength : (Nat.digits 16 a).length = (Nat.digits 16 b).length := by
      have := length_anonymizeAddress ha
      rw [h, length_anonymizeAddress hb] at this
      omega
    rw [anonymizeAddress_eq ha, anonymizeAddress_eq hb, hlength] at h
    have hdrop := List.append_cancel_left h
    rw [drop_hexadecimal, ← hlength, drop_hexadecimal] at hdrop
    exact ⟨hlength, (map_take_digits_iff hlength).1 (List.reverse_injective hdrop)⟩
  · rintro ⟨hlength, h⟩
    rw [anonymizeAddress_eq ha, anonymizeAddress_eq hb, drop_hexadecimal, drop_hexadecimal, hlength,
      (map_take_digits_iff hlength).2 h]

/-! ### Reports -/

/-- An occurrence with none before it is what is found: `strstr` returns the text from there
on, with what follows the pattern.  -/
theorem strstr_eq {pre rest pattern : Bytes} (hrest : pattern <+: rest)
    (hfirst : ∀ k < pre.length, ¬ pattern <+: (pre ++ rest).drop k) :
    strstr (pre ++ rest) pattern = some rest := by
  induction pre with
  | nil =>
      rw [List.nil_append, strstr]
      cases rest <;>
        rw [List.tails, List.find?_cons_of_pos (List.isPrefixOf_iff_prefix.2 hrest)]
  | cons c pre ih =>
      have hhead : ¬ pattern <+: c :: (pre ++ rest) := hfirst 0 (by rw [List.length_cons]; omega)
      rw [List.cons_append, strstr, List.tails,
        List.find?_cons_of_neg (by rwa [List.isPrefixOf_iff_prefix])]
      exact ih fun k hk => hfirst (k + 1) (by rw [List.length_cons]; omega)

/-- Something is found exactly where the pattern is a part of the text, at whatever place.
-/
theorem isSome_strstr_iff {text pattern : Bytes} :
    (strstr text pattern).isSome = true ↔ pattern <:+: text := by
  rw [strstr, List.find?_isSome, List.infix_iff_prefix_suffix]
  constructor
  · rintro ⟨t, ht, hpattern⟩
    exact ⟨t, List.isPrefixOf_iff_prefix.1 hpattern, (List.mem_tails _ _).1 ht⟩
  · rintro ⟨t, hpattern, ht⟩
    exact ⟨t, (List.mem_tails _ _).2 ht, List.isPrefixOf_iff_prefix.2 hpattern⟩

/-- The report is about a stack overflow. -/
def IsStackOverflow (content : Bytes) : Prop :=
  str "AddressSanitizer: stack-overflow on address" <:+: content

instance (content : Bytes) : Decidable (IsStackOverflow content) :=
  inferInstanceAs (Decidable (_ <:+: _))

/-- **The report gives the address.**  Behind the first `pc 0x` there are the digits of
the address, in either case and with any zeros in front, up to something that is neither a
letter nor a digit. -/
structure ReportsPc (content : Bytes) (addr : ℕ) (before digits after : Bytes) : Prop where
  content_eq : content = before ++ (str "pc 0x" ++ (digits ++ after))
  text : 0 ∉ content
  first : ∀ k < before.length, ¬ str "pc 0x" <+: content.drop k
  isHex : ∀ c ∈ digits, (hexVal c).isSome = true
  value : hexValue digits = addr
  addr_lt : addr < 2 ^ 64
  ends : ∀ c, after.head? = some c → isAlnum c = false

/-- The characters of hexadecimal numbers are among those that `CheckFilename` lets pass.
-/
theorem isAlnum_of_hexVal {c : UInt8} (h : (hexVal c).isSome = true) : isAlnum c = true := by
  have hall : ∀ n < 256, (hexVal (UInt8.ofNat n)).isSome = true → isAlnum (UInt8.ofNat n) = true := by
    decide +kernel
  rw [← UInt8.ofNat_toNat (x := c)] at h ⊢
  exact hall c.toNat c.toNat_lt h

/-- Characters with a property, up to one without it. -/
theorem takeWhile_append_of_head {p : UInt8 → Bool} {a b : Bytes} (ha : ∀ c ∈ a, p c = true)
    (hb : ∀ c, b.head? = some c → p c = false) : (a ++ b).takeWhile p = a := by
  rw [List.takeWhile_append_of_pos ha]
  cases b with
  | nil => rw [List.takeWhile_nil, List.append_nil]
  | cons c b => rw [List.takeWhile_cons_of_neg (by simp [hb c rfl]), List.append_nil]

/-- **What the description is made of.** For a report that names a program counter,
`GetAsanCrashDesc` gives `ASAN_`, the mark of a stack overflow where the report has one, and
the anonymized address.  Neither the rest of the report nor the time matter.  -/
theorem getAsanCrashDesc_eq {content before digits after : Bytes} {addr : ℕ}
    (h : ReportsPc content addr before digits after) (time : ℕ) :
    getAsanCrashDesc (some content) time =
      str "ASAN_" ++ (if IsStackOverflow content then str "stack-overflow_" else []) ++
        anonymizeAddress addr := by
  have hbuf : content.takeWhile (· ≠ 0) = content :=
    List.takeWhile_eq_self_iff.2 fun c hc => decide_eq_true fun hzero => h.text (hzero ▸ hc)
  have hpc : strstr content (str "pc 0x") = some (str "pc 0x" ++ (digits ++ after)) := by
    have hfirst := h.first
    rw [h.content_eq] at hfirst ⊢
    exact strstr_eq (List.prefix_append _ _) hfirst
  have htoken : ((str "pc 0x" ++ (digits ++ after)).drop 3).take
      (2 + ((((str "pc 0x" ++ (digits ++ after)).drop 3).drop 2).takeWhile isAlnum).length) =
        str "0x" ++ digits := by
    have hdrop : (str "pc 0x" ++ (digits ++ after)).drop 3 = str "0x" ++ (digits ++ after) := rfl
    have hdrop' : (str "0x" ++ (digits ++ after)).drop 2 = digits ++ after := rfl
    rw [hdrop, hdrop',
      takeWhile_append_of_head (fun c hc => isAlnum_of_hexVal (h.isHex c hc)) h.ends,
      ← List.append_assoc, List.take_left' (by rw [List.length_append]; rfl)]
  have haddr : strtoul16 (str "0x" ++ digits) = addr := by
    have hdrop : (str "0x" ++ digits).drop 2 = digits := rfl
    rw [strtoul16, hdrop, List.takeWhile_eq_self_iff.2 h.isHex, h.value]
    have := h.addr_lt
    omega
  rw [getAsanCrashDesc]
  dsimp only
  rw [hbuf, hpc]
  dsimp only
  rw [htoken, haddr]
  by_cases hso : IsStackOverflow content
  · rw [if_pos (isSome_strstr_iff.2 hso), if_pos hso]
  · rw [if_neg fun hsome => hso (isSome_strstr_iff.1 hsome), if_neg hso]

/-- No address begins as `stack-overflow_` does. -/
theorem head_anonymizeAddress (n : ℕ) : (anonymizeAddress n).head? = some zeroChar := by
  by_cases hn : n = 0
  · subst hn
    decide
  · rw [anonymizeAddress_eq hn]
    rfl

/-- Every character of a hexadecimal number is a digit, in lower case.  -/
theorem mem_hexadecimal {n : ℕ} {c : UInt8} (h : c ∈ hexadecimal n) :
    ∃ d < 16, c = hexDigit d := by
  rw [hexadecimal, List.mem_reverse, List.mem_map] at h
  obtain ⟨d, hd, rfl⟩ := h
  exact ⟨d, Nat.digits_lt_base (by omega) hd, rfl⟩

/-- The characters of an address, anonymized or not, are the `x` and the hexadecimal digits,
in lower case.  -/
theorem mem_anonymizeAddress {n : ℕ} {c : UInt8} (h : c ∈ anonymizeAddress n) :
    c = xChar ∨ ∃ d < 16, c = hexDigit d := by
  by_cases hn : n = 0
  · subst hn
    exact Or.inr ⟨0, by omega, List.mem_singleton.1 h⟩
  rw [anonymizeAddress_eq hn, List.mem_append, List.mem_append] at h
  rcases h with (hhex | hx) | hdigit
  · rcases List.mem_cons.1 hhex with rfl | hhex
    · exact Or.inr ⟨0, by omega, rfl⟩
    · exact Or.inl (List.mem_singleton.1 hhex)
  · exact Or.inl (List.eq_of_mem_replicate hx)
  · exact Or.inr (mem_hexadecimal (List.mem_of_mem_drop hdigit))

/-- An address has no underscore in its text, so the underscores of a name are those between
its parts and the parts can be told apart.  -/
theorem underscore_notMem_anonymizeAddress (n : ℕ) : underscore ∉ anonymizeAddress n := by
  have hdigit : ∀ d < 16, underscore ≠ hexDigit d := by decide
  intro h
  rcases mem_anonymizeAddress h with hx | ⟨d, hd, heq⟩
  · exact absurd hx (by decide)
  · exact hdigit d hd heq

/-- Different types of exceptions have different names.  -/
theorem ExceptionType.name_injective : Function.Injective ExceptionType.name := by
  intro s t
  cases s <;> cases t <;> first | exact fun _ => rfl | exact fun h => absurd h (by decide)

/-- **When two exceptions are of one crash**: they are of one type, and each address of
the one has as many digits as that of the other and the same place in its page. -/
theorem tinyInstName_eq_iff (type type' : ExceptionType) (ip ip' accessAddress accessAddress' : ℕ) :
    tinyInstName type ip accessAddress = tinyInstName type' ip' accessAddress' ↔
      type = type' ∧
        ((Nat.digits 16 ip).length = (Nat.digits 16 ip').length ∧ ip % 4096 = ip' % 4096) ∧
        (Nat.digits 16 accessAddress).length = (Nat.digits 16 accessAddress').length ∧
          accessAddress % 4096 = accessAddress' % 4096 := by
  rw [← anonymizeAddress_eq_iff, ← anonymizeAddress_eq_iff]
  have hsplit : ∀ (t : ExceptionType) (a b : ℕ), tinyInstName t a b =
      (t.name ++ underscore :: anonymizeAddress a) ++ underscore :: anonymizeAddress b := by
    intro t a b
    rw [tinyInstName, show str "_" = [underscore] from rfl]
    simp
  constructor
  · intro h
    rw [hsplit, hsplit] at h
    obtain ⟨hfront, haccess⟩ := eq_of_append_cons_eq (underscore_notMem_anonymizeAddress _)
      (underscore_notMem_anonymizeAddress _) h
    obtain ⟨htype, hip⟩ := eq_of_append_cons_eq (underscore_notMem_anonymizeAddress _)
      (underscore_notMem_anonymizeAddress _) hfront
    exact ⟨ExceptionType.name_injective htype, hip, haccess⟩
  · rintro ⟨rfl, hip, haccess⟩
    rw [tinyInstName, tinyInstName, hip, haccess]

/-- `CheckFilename` looks at one character after the other, so what it lets pass may be put
together, and taken apart, anywhere.  -/
theorem checkFilename_append {a b : Bytes} :
    checkFilename (a ++ b) = true ↔ checkFilename a = true ∧ checkFilename b = true := by
  rw [checkFilename, List.all_append, Bool.and_eq_true]
  exact Iff.rfl

/-- `CheckFilename` lets a decimal number pass: it has nothing but digits.  -/
theorem checkFilename_decimal (n : ℕ) : checkFilename (decimal n) = true := by
  have hdigit : ∀ d < 10, isNameChar (digit d) = true := by decide
  refine List.all_eq_true.2 fun c hc => ?_
  obtain ⟨d, hd, rfl⟩ := mem_decimal hc
  exact hdigit d hd

/-- `CheckFilename` lets an address pass, whether it is null or not.  -/
theorem checkFilename_anonymizeAddress (n : ℕ) : checkFilename (anonymizeAddress n) = true := by
  have hdigit : ∀ d < 16, isNameChar (hexDigit d) = true := by decide
  refine List.all_eq_true.2 fun c hc => ?_
  rcases mem_anonymizeAddress hc with rfl | ⟨d, hd, rfl⟩
  · rfl
  · exact hdigit d hd

/-- `CheckFilename` lets the names that TinyInst gives to crashes pass: the type of the
exception and two addresses, with underscores between them.  -/
theorem checkFilename_tinyInstName (type : ExceptionType) (ip accessAddress : ℕ) :
    checkFilename (tinyInstName type ip accessAddress) = true := by
  have hname : checkFilename type.name = true := by cases type <;> decide
  have hunderscore : checkFilename (str "_") = true := by decide
  simp only [tinyInstName, checkFilename_append, hname, hunderscore,
    checkFilename_anonymizeAddress, and_self]

/-- Nothing of the report itself is in the description, whatever the sanitizer has written:
its letters are those of the fixed parts, of hexadecimal digits and of the time, and the
server accepts all of them in a name.  -/
theorem checkFilename_getAsanCrashDesc (report : Option Bytes) (time : ℕ) :
    checkFilename (getAsanCrashDesc report time) = true := by
  have hasan : checkFilename (str "ASAN_") = true := by decide
  have hreason : ∀ p : Prop, ∀ [Decidable p],
      checkFilename (if p then str "stack-overflow_" else []) = true := by
    intro p _
    split
    · decide
    · rfl
  unfold getAsanCrashDesc
  split
  · rw [checkFilename_append]
    exact ⟨hasan, checkFilename_decimal time⟩
  · dsimp only
    split
    · rw [checkFilename_append, checkFilename_append]
      exact ⟨⟨hasan, hreason _⟩, checkFilename_decimal time⟩
    · rw [checkFilename_append, checkFilename_append]
      exact ⟨⟨hasan, hreason _⟩, checkFilename_anonymizeAddress _⟩

/-- `CheckFilename` lets the names of the other instrumentation pass, those that are made
from a report of ASan and those that are made from a signal and the time.  -/
theorem checkFilename_sanCovName (crash : ChildCrash) (time : ℕ) :
    checkFilename (sanCovName crash time) = true := by
  have hunderscore : checkFilename (str "_") = true := by decide
  cases crash with
  | unexpectedError =>
      rw [sanCovName, checkFilename_append]
      exact ⟨by decide, checkFilename_decimal time⟩
  | signaled signal =>
      rw [sanCovName, checkFilename_append, checkFilename_append, checkFilename_append]
      exact ⟨⟨⟨by decide, checkFilename_decimal signal⟩, hunderscore⟩, checkFilename_decimal time⟩
  | asan report => exact checkFilename_getAsanCrashDesc report time
  | exited =>
      rw [sanCovName, checkFilename_append]
      exact ⟨by decide, checkFilename_decimal time⟩

/-- `Instrumentation::GetCrashName` of either instrumentation. -/
inductive CrashName
  | tinyInst (type : ExceptionType) (ip accessAddress : ℕ)
  | sanCov (crash : ChildCrash) (time : ℕ)

/-- The name. -/
def CrashName.name : CrashName → Bytes
  | .tinyInst type ip accessAddress => tinyInstName type ip accessAddress
  | .sanCov crash time => sanCovName crash time

/-- `CheckFilename` lets every name of a crash pass, of either instrumentation, so the
server does not turn a fuzzer down for the name of its crash.  -/
theorem checkFilename_name (crash : CrashName) : checkFilename crash.name = true := by
  cases crash with
  | tinyInst type ip accessAddress => exact checkFilename_tinyInstName type ip accessAddress
  | sanCov crash time => exact checkFilename_sanCovName crash time

/-- **No crash of a fuzzer is refused for its name**: whatever the target did and wrote,
and whether or not it crashed again and how, `CheckFilename` lets the description through,
and the name of the file too. -/
theorem checkFilename_crashDescription (crashReproduceRetries : ℕ) (crash : CrashName)
    (reproduced : Option CrashName) (duplicates : ℕ) :
    checkFilename (crashDescription crashReproduceRetries crash.name
        (reproduced.map CrashName.name)) = true ∧
      checkFilename (crashFilename (crashDescription crashReproduceRetries crash.name
        (reproduced.map CrashName.name)) duplicates) = true := by
  have hdesc : checkFilename (crashDescription crashReproduceRetries crash.name
      (reproduced.map CrashName.name)) = true := by
    unfold crashDescription
    split
    · cases reproduced with
      | none =>
          rw [Option.map_none]
          exact checkFilename_append.2 ⟨by decide, checkFilename_name crash⟩
      | some betterCrash => exact checkFilename_name betterCrash
    · exact checkFilename_name crash
  exact ⟨hdesc, checkFilename_crashFilename hdesc duplicates⟩

end Crashes
end Jackalope
