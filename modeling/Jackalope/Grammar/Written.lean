/-
# Rules that are written and read back

How a rule is written as a line of a grammar file: `<name> = ` and then its parts, a
symbol as `<s>` or `<s id=K>`, and a string byte by byte.  A byte that would end the
string, or that is lost before the automaton sees it, is written as `<0xHH>`; any other
byte may be, so `WritesString` is a relation.  `escapeParts` is the way that escapes no
more than it has to.

`ParseGrammarLine` reads back every rule, however it is written
(`parse_written_rule`).  The induction is over the parts, and over the bytes of a
string; `HasRead` is what it carries: the automaton is outside of a tag, the map of
attributes is empty, and the parts so far are those of the rule, where the last string
may still be in `text`.
-/

import Jackalope.Grammar.Attributes

namespace Jackalope
namespace Grammar

/-! ### Writing -/

/-- A name that is written between `<` and `>` and read back as the symbol. -/
structure IsSymbolName (name : Bytes) : Prop where
  nonempty : name ≠ []
  bytes : ∀ c ∈ name, isBlank c = false ∧ c ≠ 60 ∧ c ≠ 62 ∧ c ≠ 35 ∧ c ≠ 0 ∧ c ≠ 10
  notConstant : constants.lookup name = none
  notHex : ¬ str "0x" <+: name

/-- A part that can be written: a string is not empty, and the attributes of a symbol
are its id. -/
def Writable : RulePart → Prop
  | .string value => value ≠ []
  | .symbol name id attributes => IsSymbolName name ∧ ((id = 0 ∧ attributes = []) ∨
      (1 ≤ id ∧ id < 2 ^ 31 ∧ attributes = [(str "id", decimal id)]))

/-- `<`, `#`, 0 and the newline. -/
def mustEscape (c : UInt8) : Bool := c = 60 || c = 35 || c = 0 || c = 10

/-- **A string as it may be written**: each byte verbatim or as `<0xHH>`. -/
inductive WritesString : Bytes → Bytes → Prop
  | nil : WritesString [] []
  | verbatim {c value text} : mustEscape c = false → WritesString value text →
      WritesString (c :: value) (c :: text)
  | escaped {c d e value text} : hexPairs [d, e] = some [c] → WritesString value text →
      WritesString (c :: value) (str "<0x" ++ [d, e] ++ str ">" ++ text)

/-- A symbol, with its id if it has one. -/
def writeSymbol (name : Bytes) (id : ℕ) : Bytes :=
  str "<" ++ name ++ (if id = 0 then [] else str " id=" ++ decimal id) ++ str ">"

def WritesPart : RulePart → Bytes → Prop
  | .string value, text => WritesString value text
  | .symbol name id _, text => text = writeSymbol name id

inductive WritesParts : List RulePart → Bytes → Prop
  | nil : WritesParts [] []
  | cons {part parts text text'} : WritesPart part text → WritesParts parts text' →
      WritesParts (part :: parts) (text ++ text')

/-- **The right side of a line**: no blank at its end is written verbatim. -/
structure WritesRule (parts : List RulePart) (text : Bytes) : Prop where
  parts : WritesParts parts text
  trailing : ∀ c, text.getLast? = some c → isBlank c = false

/-- `<0xHH>`. -/
def hexCharacter (n : ℕ) : UInt8 := UInt8.ofNat (if n < 10 then 48 + n else 55 + n)

def escape (c : UInt8) : Bytes :=
  str "<0x" ++ [hexCharacter (c.toNat / 16), hexCharacter (c.toNat % 16)] ++ str ">"

/-- A string with the bytes escaped that have to be, and blanks at its end. -/
def escapeString : Bytes → Bytes
  | [] => []
  | c :: value =>
      (if mustEscape c || isBlank c && value.all isBlank then escape c else [c]) ++
        escapeString value

def escapePart : RulePart → Bytes
  | .string value => escapeString value
  | .symbol name id _ => writeSymbol name id

def escapeParts (parts : List RulePart) : Bytes := parts.flatMap escapePart

/-- A byte is two hexadecimal digits, and is read back from them.  -/
theorem hexPairs_hexCharacter (c : UInt8) :
    hexPairs [hexCharacter (c.toNat / 16), hexCharacter (c.toNat % 16)] = some [c] := by
  have hall : ∀ n < 256, hexPairs [hexCharacter (n / 16), hexCharacter (n % 16)] =
      some [UInt8.ofNat n] := by decide +kernel
  rw [hall c.toNat (UInt8.toNat_lt c), UInt8.ofNat_toNat]

/-- Escaping is one of the ways to write a string: it writes as hexadecimal symbols what
must not stand there, and all else as it is.  -/
theorem writesString_escapeString (value : Bytes) : WritesString value (escapeString value) := by
  induction value with
  | nil => exact .nil
  | cons c value ih =>
      rw [escapeString]
      split
      · exact .escaped (hexPairs_hexCharacter c) ih
      · rename_i h
        refine .verbatim ?_ ih
        simp only [Bool.or_eq_true, not_or, Bool.not_eq_true] at h
        exact h.1

/-- Escaping each string, and giving each symbol its tag, is one of the ways to write the
parts of a rule.  -/
theorem writesParts_escapeParts (parts : List RulePart) : WritesParts parts (escapeParts parts) := by
  induction parts with
  | nil => exact .nil
  | cons part parts ih =>
      rw [escapeParts, List.flatMap_cons]
      refine .cons ?_ ih
      cases part with
      | string value => exact writesString_escapeString value
      | symbol => rfl

/-- A string that is written does not end with a blank: a blank at the end is written as a
hexadecimal symbol, since `Trim` would take it off the line.  -/
theorem escapeString_trailing {value : Bytes} (hne : value ≠ []) :
    ∃ s c, escapeString value = s ++ [c] ∧ isBlank c = false := by
  induction value with
  | nil => exact absurd rfl hne
  | cons c value ih =>
      rw [escapeString]
      by_cases hvalue : value = []
      · subst hvalue
        split
        · exact ⟨str "<0x" ++ [_, _], 62, rfl, rfl⟩
        · rename_i h
          refine ⟨[], c, rfl, ?_⟩
          simpa using (not_or.1 (by simpa using h : ¬ (mustEscape c = true ∨ isBlank c = true))).2
      · obtain ⟨s, d, hs, hd⟩ := ih hvalue
        exact ⟨_ ++ s, d, by rw [hs, List.append_assoc], hd⟩

/-- A tag ends with a character that is not a blank, so `CleanLine` cuts nothing off it.  -/
theorem writeSymbol_trailing (name : Bytes) (id : ℕ) :
    ∃ s c, writeSymbol name id = s ++ [c] ∧ isBlank c = false :=
  ⟨_, 62, rfl, rfl⟩

/-- **Every rule can be written.** The escaped text of its parts is one of the texts that
`WritesRule` allows, so what is proved of every writing is not about nothing.  -/
theorem writesRule_escapeParts {parts : List RulePart} (h : ∀ part ∈ parts, Writable part) :
    WritesRule parts (escapeParts parts) := by
  refine ⟨writesParts_escapeParts parts, ?_⟩
  rcases List.eq_nil_or_concat parts with rfl | ⟨init, last, rfl⟩
  · exact nofun
  · intro c hc
    have hlast : ∃ s d, escapePart last = s ++ [d] ∧ isBlank d = false := by
      have hwritable := h last (by simp)
      cases last with
      | string value => exact escapeString_trailing hwritable
      | symbol name id attributes => exact writeSymbol_trailing name id
    obtain ⟨s, d, hs, hd⟩ := hlast
    rw [List.concat_eq_append, escapeParts, List.flatMap_append, List.flatMap_singleton, hs,
      ← List.append_assoc, List.getLast?_append] at hc
    cases hc
    exact hd

/-! ### The automaton on a text -/

/-- Through this text the variables go from `l` to `l'`. -/
def Through (l : Line) (text : Bytes) (l' : Line) : Prop := text.foldlM step l = some l'

/-- Nothing read, nothing changed.  -/
theorem Through.nil (l : Line) : Through l [] l := rfl

/-- Two texts, one behind the other.  -/
theorem Through.append {l l' l'' : Line} {s t : Bytes} (h : Through l s l')
    (h' : Through l' t l'') : Through l (s ++ t) l'' := by
  rw [Through, List.foldlM_append, show s.foldlM step l = some l' from h]
  exact h'

/-- One character and the text behind it.  -/
theorem Through.cons {l l' l'' : Line} {c : UInt8} {t : Bytes} (h : step l c = some l')
    (h' : Through l' t l'') : Through l (c :: t) l'' := by
  rw [Through, List.foldlM_cons, h]
  exact h'

/-- Bytes that are only collected. -/
theorem Through.collect {l : Line} {s : Bytes}
    (hstep : ∀ text, ∀ c ∈ s, step { l with text := text } c = some { l with text := text ++ [c] }) :
    Through l s { l with text := l.text ++ s } := by
  induction s generalizing l with
  | nil =>
      rw [List.append_nil]
      exact Through.nil l
  | cons c s ih =>
      refine Through.cons (hstep l.text c List.mem_cons_self) ?_
      have hrest := @ih { l with text := l.text ++ [c] } fun text d hd =>
        hstep text d (List.mem_cons_of_mem c hd)
      simpa using hrest

/-! ### Outside of tags -/

/-- **Behind the text of these parts**: the last string may still be in `text`. -/
structure HasRead (l : Line) (generates : Bytes) (parts : List RulePart) : Prop where
  attributes : l.attributes = []
  generates : l.generates = generates
  parts : ((l.state = .equalSpace ∨ l.state = .symbolEnd) ∧ l.parts = parts) ∨
    (l.state = .string ∧ addString l.parts l.text = parts)

/-- A string behind a string is one longer string.  -/
theorem addString_concat (parts : List RulePart) (last value : Bytes) :
    addString (parts ++ [.string last]) value = parts ++ [.string (last ++ value)] := by
  rw [addString, List.getLast?_append]
  show (parts ++ [_]).dropLast ++ _ = _
  rw [List.dropLast_concat]

/-- Behind anything but a string, a string is a new part. -/
theorem addString_new {parts : List RulePart}
    (h : ∀ part, parts.getLast? = some part → part.isSymbol = true) (value : Bytes) :
    addString parts value = parts ++ [.string value] := by
  unfold addString
  split
  · rename_i last hlast
    cases h _ hlast
  · rfl

/-- So it does not matter in how many pieces a string is read: consecutive string parts are
one part, and byte for byte or symbol for symbol the same bytes come together.  -/
theorem addString_append (parts : List RulePart) (u v : Bytes) :
    addString (addString parts u) v = addString parts (u ++ v) := by
  rcases List.eq_nil_or_concat parts with rfl | ⟨init, last, rfl⟩
  · exact addString_concat [] u v
  · rw [List.concat_eq_append]
    cases last with
    | string last =>
        rw [addString_concat, addString_concat, addString_concat, List.append_assoc]
    | symbol name id attributes =>
        have hnew : ∀ value, addString (init ++ [.symbol name id attributes]) value =
            init ++ [.symbol name id attributes] ++ [.string value] := by
          refine addString_new fun part hpart => ?_
          rw [List.getLast?_append] at hpart
          cases hpart
          rfl
        rw [hnew, hnew, addString_concat]

/-- A byte of a string, other than the `<` that begins a tag and the 0 behind the line, is
appended to the string part that is being read.  -/
theorem HasRead.verbatim {l : Line} {generates : Bytes} {parts : List RulePart} {c : UInt8}
    (h : HasRead l generates parts) (hc : c ≠ 60) (hc' : c ≠ 0) :
    ∃ l', step l c = some l' ∧ HasRead l' generates (addString parts [c]) := by
  obtain ⟨g, state, text, symbolname, attrname, attributes, generates', parts'⟩ := l
  obtain ⟨rfl, rfl, ⟨rfl | rfl, rfl⟩ | ⟨rfl, rfl⟩⟩ := h
  · refine ⟨⟨g, .string, [c], symbolname, attrname, [], generates', parts'⟩, ?_, rfl, rfl,
      Or.inr ⟨rfl, rfl⟩⟩
    simp only [step, hc, hc', if_false]
  · refine ⟨⟨g, .string, [c], symbolname, attrname, [], generates', parts'⟩, ?_, rfl, rfl,
      Or.inr ⟨rfl, rfl⟩⟩
    simp only [step, hc, hc', if_false]
  · refine ⟨⟨g, .string, text ++ [c], symbolname, attrname, [], generates', parts'⟩, ?_, rfl, rfl,
      Or.inr ⟨rfl, (addString_append _ _ _).symm⟩⟩
    simp only [step, hc, hc', if_false]

/-- A tag begins: the automaton collects its name from the next byte on, with no attribute
left from the tag before.  -/
theorem HasRead.tag {l : Line} {generates : Bytes} {parts : List RulePart}
    (h : HasRead l generates parts) :
    ∃ l', step l 60 = some l' ∧ l'.state = .symbol ∧ l'.text = [] ∧ l'.attributes = [] ∧
      l'.generates = generates ∧ l'.parts = parts := by
  obtain ⟨g, state, text, symbolname, attrname, attributes, generates', parts'⟩ := l
  obtain ⟨rfl, rfl, ⟨rfl | rfl, rfl⟩ | ⟨rfl, rfl⟩⟩ := h
  · exact ⟨_, rfl, rfl, rfl, rfl, rfl, rfl⟩
  · exact ⟨_, rfl, rfl, rfl, rfl, rfl, rfl⟩
  · exact ⟨_, rfl, rfl, rfl, rfl, rfl, rfl⟩

/-- The line ends: what has been read is the whole rule, and a string that is still open is
closed.  -/
theorem HasRead.finish {l : Line} {generates : Bytes} {parts : List RulePart}
    (h : HasRead l generates parts) :
    ∃ l', step l 0 = some l' ∧ l'.generates = generates ∧ l'.parts = parts := by
  obtain ⟨g, state, text, symbolname, attrname, attributes, generates', parts'⟩ := l
  obtain ⟨rfl, rfl, ⟨rfl | rfl, rfl⟩ | ⟨rfl, rfl⟩⟩ := h
  · exact ⟨_, rfl, rfl, rfl⟩
  · exact ⟨_, rfl, rfl, rfl⟩
  · exact ⟨_, rfl, rfl, rfl⟩

/-! ### Tags -/

/-- The name of a tag. -/
theorem through_name {l : Line} {name : Bytes} (hstate : l.state = .symbol) (htext : l.text = [])
    (hname : ∀ c ∈ name, isBlank c = false ∧ c ≠ 62 ∧ c ≠ 0) :
    Through l name { l with text := name } := by
  obtain ⟨g, state, text, symbolname, attrname, attributes, generates, parts⟩ := l
  obtain rfl : state = _ := hstate
  obtain rfl : text = _ := htext
  refine Through.collect fun text c hc => ?_
  obtain ⟨hblank, hne, hzero⟩ := hname c hc
  simp only [step, hblank, Bool.false_eq_true, hne, hzero, if_false]

/-- **A tag without attributes**: its name is collected, and `AddRulePart` is called at the
`>`. -/
theorem through_tag {l l' : Line} {name : Bytes} (hstate : l.state = .symbol) (htext : l.text = [])
    (hne : name ≠ []) (hname : ∀ c ∈ name, isBlank c = false ∧ c ≠ 62 ∧ c ≠ 0)
    (hadd : ({ l with state := .symbolEnd, text := name, symbolname := name } : Line).addSymbol =
      some l') : Through l (name ++ [62]) l' := by
  refine (through_name hstate htext hname).append (Through.cons ?_ (Through.nil l'))
  obtain ⟨g, state, text, symbolname, attrname, attributes, generates, parts⟩ := l
  obtain rfl : state = _ := hstate
  simp only [step, show isBlank 62 = false from rfl, Bool.false_eq_true, if_false, if_true, hne]
  exact hadd

/-- **A tag with an id** takes the automaton through the name, the key `id` and its value,
and the `>` adds the symbol part with that attribute.  -/
theorem through_tag_id {l l' : Line} {name value : Bytes} (hstate : l.state = .symbol)
    (htext : l.text = []) (hne : name ≠ [])
    (hname : ∀ c ∈ name, isBlank c = false ∧ c ≠ 62 ∧ c ≠ 0)
    (hvalue : ∀ c ∈ value, isBlank c = false ∧ c ≠ 62 ∧ c ≠ 0)
    (hadd : ({ l with
      state := .symbolEnd, text := value, symbolname := name, attrname := str "id",
      attributes := l.attributes.set (str "id") value } : Line).addSymbol = some l') :
    Through l (name ++ (str " id=" ++ (value ++ [62]))) l' := by
  refine (through_name hstate htext hname).append ?_
  obtain ⟨g, state, text, symbolname, attrname, attributes, generates, parts⟩ := l
  obtain rfl : state = _ := hstate
  obtain rfl : text = _ := htext
  -- the blank, and the name of the attribute
  have hid : Through ⟨g, .symbol, name, symbolname, attrname, attributes, generates, parts⟩
      (str " id=") ⟨g, .attrValue, [], name, str "id", attributes, generates, parts⟩ := by
    refine @Through.cons _ ⟨g, .symbolSpace, name, name, attrname, attributes, generates, parts⟩
      _ _ _ ?_ rfl
    show step _ 32 = _
    simp only [step, show isBlank 32 = true from rfl, if_true, hne, if_false]
  refine hid.append (Through.append (Through.collect fun text c hc => ?_)
    (Through.cons hadd (Through.nil l')))
  obtain ⟨hblank, hne, hzero⟩ := hvalue c hc
  simp only [step, hblank, Bool.false_eq_true, hne, hzero, if_false]

/-! ### Parts -/

/-- The digits of a hexadecimal symbol. -/
theorem of_hexPairs {c d e : UInt8} (h : hexPairs [d, e] = some [c]) :
    (hexDigit d).isSome = true ∧ (hexDigit e).isSome = true := by
  rw [hexPairs] at h
  obtain ⟨dValue, hd, h⟩ := Option.bind_eq_some_iff.1 h
  obtain ⟨eValue, he, -⟩ := Option.bind_eq_some_iff.1 h
  rw [hd, he]
  exact ⟨rfl, rfl⟩

/-- A hexadecimal digit is none of the characters that mean something to the scanner.  -/
theorem of_hexDigit {c : UInt8} (h : (hexDigit c).isSome = true) :
    isBlank c = false ∧ c ≠ 62 ∧ c ≠ 0 ∧ c ≠ 35 := by
  have hall : ∀ n < 256, (hexDigit (UInt8.ofNat n)).isSome = true →
      isBlank (UInt8.ofNat n) = false ∧ UInt8.ofNat n ≠ 62 ∧ UInt8.ofNat n ≠ 0 ∧
        UInt8.ofNat n ≠ 35 := by decide +kernel
  have hc := hall c.toNat (UInt8.toNat_lt c)
  rw [UInt8.ofNat_toNat] at hc
  exact hc h

/-- `AddRulePart` decodes a hexadecimal symbol: a name that begins with `0x` is no symbol of
the grammar but one byte for each two digits.  -/
theorem addSymbol_hex {l : Line} {c d e : UInt8} (hname : l.symbolname = str "0x" ++ [d, e])
    (hhex : hexPairs [d, e] = some [c]) : l.addSymbol = some (l.addString [c]) := by
  have hlookup : constants.lookup l.symbolname = none := by
    rw [hname]
    rfl
  have hprefix : str "0x" <+: l.symbolname := by
    rw [hname]
    exact List.prefix_append _ _
  have hdecode : hexStringToString l.symbolname = some [c] := by
    rw [hname, hexStringToString, if_neg (by simp [str])]
    exact hhex
  rw [Line.addSymbol, hlookup]
  show (if str "0x" <+: l.symbolname then (hexStringToString l.symbolname).map _ else _) = _
  rw [if_pos hprefix, hdecode]
  rfl

/-- `<0xHH>` is read as the byte, which is appended to the string part before it as if it
had been written itself.  -/
theorem HasRead.escaped {l : Line} {generates : Bytes} {parts : List RulePart} {c d e : UInt8}
    (h : HasRead l generates parts) (hhex : hexPairs [d, e] = some [c]) :
    ∃ l', Through l (str "<0x" ++ [d, e] ++ str ">") l' ∧
      HasRead l' generates (addString parts [c]) := by
  obtain ⟨l₁, hstep, hstate, htext, hattributes, hgenerates, hparts⟩ := h.tag
  obtain ⟨hd, he⟩ := of_hexPairs hhex
  have hname : ∀ x ∈ str "0x" ++ [d, e], isBlank x = false ∧ x ≠ 62 ∧ x ≠ 0 := by
    intro x hx
    have hx' : x = 48 ∨ x = 120 ∨ x = d ∨ x = e := by simpa [str] using hx
    rcases hx' with rfl | rfl | rfl | rfl
    · decide
    · decide
    · exact ⟨(of_hexDigit hd).1, (of_hexDigit hd).2.1, (of_hexDigit hd).2.2.1⟩
    · exact ⟨(of_hexDigit he).1, (of_hexDigit he).2.1, (of_hexDigit he).2.2.1⟩
  have htag := @through_tag l₁ _ (str "0x" ++ [d, e]) hstate htext (by simp [str]) hname
    (addSymbol_hex rfl hhex)
  refine ⟨_, Through.cons hstep htag, hattributes, hgenerates, Or.inl ⟨Or.inr rfl, ?_⟩⟩
  exact congrArg (fun parts => addString parts [c]) hparts

/-- **A string**, byte by byte: each byte stands for itself or is written as a hexadecimal
symbol, and what has been read is the same.  -/
theorem HasRead.string {l : Line} {generates : Bytes} {parts : List RulePart} {value text : Bytes}
    (h : HasRead l generates parts) (hw : WritesString value text) :
    ∃ l', Through l text l' ∧
      HasRead l' generates (value.foldl (fun parts c => addString parts [c]) parts) := by
  induction hw generalizing l parts with
  | nil => exact ⟨l, Through.nil l, h⟩
  | @verbatim c value text hc _ ih =>
      have hc' : c ≠ 60 ∧ c ≠ 0 := by
        constructor <;>
          · rintro rfl
            cases hc
      obtain ⟨l₁, hstep, h₁⟩ := h.verbatim hc'.1 hc'.2
      obtain ⟨l₂, hrest, h₂⟩ := ih h₁
      exact ⟨l₂, Through.cons hstep hrest, h₂⟩
  | escaped hhex _ ih =>
      obtain ⟨l₁, hstep, h₁⟩ := h.escaped hhex
      obtain ⟨l₂, hrest, h₂⟩ := ih h₁
      exact ⟨l₂, hstep.append hrest, h₂⟩

/-- The bytes are merged: byte for byte, they make one string part, which is appended to a
string before it if there is one.  -/
theorem foldl_addString {value : Bytes} (hne : value ≠ []) (parts : List RulePart) :
    value.foldl (fun parts c => addString parts [c]) parts = addString parts value := by
  induction value generalizing parts with
  | nil => exact absurd rfl hne
  | cons c value ih =>
      by_cases hvalue : value = []
      · rw [hvalue]
        rfl
      · rw [List.foldl_cons, ih hvalue, addString_append]
        rfl

/-! ### Ids -/

/-- Nor is a decimal digit, and `atoi` neither skips it nor takes it for a sign.  -/
theorem of_mem_decimal {id : ℕ} {c : UInt8} (hc : c ∈ decimal id) :
    isDigit c = true ∧ isSpace c = false ∧ c ≠ 43 ∧ c ≠ 45 ∧ isBlank c = false ∧ c ≠ 62 ∧ c ≠ 0 ∧
      c ≠ 35 := by
  have hall : ∀ d < 10, isDigit (digit d) = true ∧ isSpace (digit d) = false ∧ digit d ≠ 43 ∧
      digit d ≠ 45 ∧ isBlank (digit d) = false ∧ digit d ≠ 62 ∧ digit d ≠ 0 ∧ digit d ≠ 35 := by
    decide
  obtain ⟨d, hd, rfl⟩ := mem_decimal hc
  exact hall d hd

/-- A number that is not zero has a digit.  -/
theorem decimal_ne_nil {id : ℕ} (hid : 0 < id) : decimal id ≠ [] := by
  rw [decimal, if_neg (by omega), Ne, List.reverse_eq_nil_iff, List.map_eq_nil_iff,
    Nat.digits_eq_nil_iff_eq_zero]
  omega

/-- `atoi` of an id gives the id back, as long as it is one that an `int` can hold.  -/
theorem atoi_decimal {id : ℕ} (hpos : 0 < id) (hid : id < 2 ^ 31) : atoi (decimal id) = id := by
  have hnumeral := numeral_decimal id
  have hdigits : (decimal id).takeWhile isDigit = decimal id :=
    List.takeWhile_eq_self_iff.2 fun c hc => (of_mem_decimal hc).1
  obtain ⟨c, s, hs⟩ := List.exists_cons_of_ne_nil (decimal_ne_nil hpos)
  obtain ⟨-, hspace, hplus, hminus, -⟩ := of_mem_decimal (c := c) (by rw [hs]; exact List.mem_cons_self)
  have hdrop : (decimal id).dropWhile isSpace = decimal id := by
    rw [hs]
    exact List.dropWhile_cons_of_neg (by simp [hspace])
  have hhead : ∀ x, x ≠ c → ((decimal id).head? = some x) = False := by
    intro x hx
    rw [hs]
    simp [Ne.symm hx]
  rw [atoi]
  simp only [hdrop, hhead 45 (Ne.symm hminus), hhead 43 (Ne.symm hplus), or_self,
    if_false, hdigits, hnumeral]
  rw [min_eq_left (by omega)]
  exact Int.bmod_eq_of_le (by omega) (by omega)

/-- `AddRulePart` for a symbol without an id. -/
theorem addSymbol_plain {l : Line} (hname : IsSymbolName l.symbolname) (hattributes : l.attributes = []) :
    ∃ g, l.addSymbol = some { l with
      grammar := g, parts := l.parts ++ [.symbol l.symbolname 0 []], attributes := [] } := by
  rw [Line.addSymbol, hname.notConstant]
  show ∃ g, (if str "0x" <+: l.symbolname then _ else _) = _
  rw [if_neg hname.notHex, hattributes]
  exact ⟨_, rfl⟩

/-- `AddRulePart` for a symbol with an id: one part more, with the id as a number and as the
attribute that it was written as, and the map is cleared.  -/
theorem addSymbol_id {l : Line} {id : ℕ} (hname : IsSymbolName l.symbolname) (hpos : 0 < id)
    (hid : id < 2 ^ 31) (hattributes : l.attributes = [(str "id", decimal id)]) :
    ∃ g, l.addSymbol = some { l with
      grammar := g, parts := l.parts ++ [.symbol l.symbolname id [(str "id", decimal id)]],
      attributes := [] } := by
  have hset : setAttributes [(str "id", decimal id)] = some id := by
    show (if 0 < atoi (decimal id) then some (atoi (decimal id)).toNat else none) = _
    rw [atoi_decimal hpos hid, if_pos (by omega), Int.toNat_natCast]
  rw [Line.addSymbol, hname.notConstant]
  show ∃ g, (if str "0x" <+: l.symbolname then _ else _) = _
  rw [if_neg hname.notHex, hattributes, hset]
  exact ⟨_, rfl⟩

/-! ### The whole line -/

/-- Strings are not next to each other. -/
def NoAdjacentStrings (parts : List RulePart) : Prop :=
  ∀ a u v b, parts ≠ a ++ .string u :: .string v :: b

/-- **A symbol** is read back: its tag leaves the parts that were read and one part more,
with its name, its id and the attributes that were written in the tag.  -/
theorem HasRead.symbol {l : Line} {generates name : Bytes} {id : ℕ} {attributes : Attributes}
    {parts : List RulePart} (h : HasRead l generates parts)
    (hw : Writable (.symbol name id attributes)) :
    ∃ l', Through l (writeSymbol name id) l' ∧
      HasRead l' generates (parts ++ [.symbol name id attributes]) := by
  obtain ⟨l₁, hstep, hstate, htext, hattributes, hgenerates, hparts⟩ := h.tag
  obtain ⟨hname, hid⟩ := hw
  have hbytes : ∀ c ∈ name, isBlank c = false ∧ c ≠ 62 ∧ c ≠ 0 := fun c hc =>
    ⟨(hname.bytes c hc).1, (hname.bytes c hc).2.2.1, (hname.bytes c hc).2.2.2.2.1⟩
  rcases hid with ⟨rfl, rfl⟩ | ⟨hpos, hlt, rfl⟩
  · have hwritten : writeSymbol name 0 = 60 :: (name ++ [62]) := by
      rw [writeSymbol, if_pos rfl]
      simp [str]
    obtain ⟨g, hadd⟩ := @addSymbol_plain
      { l₁ with state := .symbolEnd, text := name, symbolname := name } hname hattributes
    rw [hwritten]
    refine ⟨_, Through.cons hstep (through_tag hstate htext hname.nonempty hbytes hadd), rfl,
      hgenerates, Or.inl ⟨Or.inr rfl, ?_⟩⟩
    rw [← hparts]
  · have hwritten : writeSymbol name id = 60 :: (name ++ (str " id=" ++ (decimal id ++ [62]))) := by
      rw [writeSymbol, if_neg (by omega)]
      simp [str]
    have hset : l₁.attributes.set (str "id") (decimal id) = [(str "id", decimal id)] := by
      rw [hattributes]
      rfl
    have hdigits : ∀ c ∈ decimal id, isBlank c = false ∧ c ≠ 62 ∧ c ≠ 0 := by
      intro c hc
      obtain ⟨-, -, -, -, hblank, hne, hzero, -⟩ := of_mem_decimal hc
      exact ⟨hblank, hne, hzero⟩
    obtain ⟨g, hadd⟩ := @addSymbol_id { l₁ with
      state := .symbolEnd, text := decimal id, symbolname := name, attrname := str "id",
      attributes := l₁.attributes.set (str "id") (decimal id) } id hname hpos hlt hset
    rw [hwritten]
    refine ⟨_, Through.cons hstep (through_tag_id hstate htext hname.nonempty hbytes hdigits hadd),
      rfl, hgenerates, Or.inl ⟨Or.inr rfl, ?_⟩⟩
    rw [← hparts]

/-- **The parts**, one after the other.  No two strings stand next to each other in a rule,
or they would be read as one, and this is the condition that is carried along.  -/
theorem HasRead.parts_through {l : Line} {generates text : Bytes} {done parts : List RulePart}
    (h : HasRead l generates done) (hw : WritesParts parts text)
    (hwritable : ∀ part ∈ parts, Writable part) (hadjacent : NoAdjacentStrings (done ++ parts)) :
    ∃ l', Through l text l' ∧ HasRead l' generates (done ++ parts) := by
  induction hw generalizing l done with
  | nil => exact ⟨l, Through.nil l, by rwa [List.append_nil]⟩
  | @cons part parts text text' hpart _ ih =>
      have hrest : ∀ p ∈ parts, Writable p := fun p hp => hwritable p (List.mem_cons_of_mem part hp)
      have hthis := hwritable part List.mem_cons_self
      have happend : done ++ part :: parts = (done ++ [part]) ++ parts := by simp
      have hone : ∃ l₁, Through l text l₁ ∧ HasRead l₁ generates (done ++ [part]) := by
        cases part with
        | string value =>
            obtain ⟨l₁, hthrough, h₁⟩ := h.string hpart
            refine ⟨l₁, hthrough, ?_⟩
            rw [foldl_addString hthis, addString_new] at h₁
            · exact h₁
            · intro last hlast
              cases last with
              | symbol => rfl
              | string u =>
                  refine absurd ?_ (hadjacent done.dropLast u value parts)
                  conv_lhs => rw [← List.dropLast_append_getLast? _ hlast]
                  simp
        | symbol name id attributes =>
            obtain rfl : text = _ := hpart
            exact h.symbol hthis
      obtain ⟨l₁, hthrough, h₁⟩ := hone
      rw [happend] at hadjacent ⊢
      obtain ⟨l₂, hthrough₂, h₂⟩ := ih h₁ hrest hadjacent
      exact ⟨l₂, hthrough.append hthrough₂, h₂⟩

/-- The left side of a line: the name between the angle brackets becomes the symbol that the
line generates, and the automaton waits behind the `=`. -/
theorem through_left (g : Grammar) {name : Bytes} (hne : name ≠ [])
    (hname : ∀ c ∈ name, c ≠ 62 ∧ c ≠ 0) :
    Through (Line.start g) (str "<" ++ name ++ str "> =")
      ⟨g, .equal, name, name, [], [], name, []⟩ := by
  have hcollect : Through ⟨g, .generatorSymbol, [], [], [], [], [], []⟩ name
      ⟨g, .generatorSymbol, name, [], [], [], [], []⟩ := by
    refine Through.collect fun text c hc => ?_
    obtain ⟨hgt, hzero⟩ := hname c hc
    simp only [step, hgt, hzero, if_false]
  have hend : Through ⟨g, .generatorSymbol, name, [], [], [], [], []⟩ (str "> =")
      ⟨g, .equal, name, name, [], [], name, []⟩ := by
    refine @Through.cons _ ⟨g, .generatorSymbolEnd, name, name, [], [], name, []⟩ _ _ _ ?_ rfl
    show step _ 62 = _
    simp only [step, if_true, hne, if_false]
  exact Through.append (Through.cons rfl hcollect) hend

/-- Bytes that are read before the automaton: not a comment, and not the end.  `ParseGrammarLine`
cuts the line at a `#`, so a `#` of a string is written as a hexadecimal symbol.  -/
theorem WritesString.bytes {value text : Bytes} (h : WritesString value text) :
    ∀ c ∈ text, c ≠ 35 ∧ c ≠ 0 := by
  induction h with
  | nil => exact nofun
  | @verbatim c value text hc _ ih =>
      rw [List.forall_mem_cons]
      refine ⟨?_, ih⟩
      constructor <;>
        · rintro rfl
          cases hc
  | @escaped c d e value text hhex _ ih =>
      obtain ⟨hd, he⟩ := of_hexPairs hhex
      obtain ⟨-, -, hd₀, hd₁⟩ := of_hexDigit hd
      obtain ⟨-, -, he₀, he₁⟩ := of_hexDigit he
      intro x hx
      rcases List.mem_append.1 hx with hx | hx
      · have hx' : x = 60 ∨ x = 48 ∨ x = 120 ∨ x = d ∨ x = e ∨ x = 62 := by simpa [str] using hx
        rcases hx' with rfl | rfl | rfl | rfl | rfl | rfl
        · decide
        · decide
        · decide
        · exact ⟨hd₁, hd₀⟩
        · exact ⟨he₁, he₀⟩
        · decide
      · exact ih x hx

/-- No way of writing the parts of a rule needs a `#`, which would begin a comment, or a
null byte, which would end the line.  -/
theorem WritesParts.bytes {parts : List RulePart} {text : Bytes} (h : WritesParts parts text)
    (hwritable : ∀ part ∈ parts, Writable part) : ∀ c ∈ text, c ≠ 35 ∧ c ≠ 0 := by
  induction h with
  | nil => exact nofun
  | @cons part parts text text' hpart _ ih =>
      rw [List.forall_mem_append]
      refine ⟨?_, ih fun p hp => hwritable p (List.mem_cons_of_mem part hp)⟩
      cases part with
      | string value => exact hpart.bytes
      | symbol name id attributes =>
          obtain rfl : text = _ := hpart
          have hname := (hwritable _ List.mem_cons_self).1
          have hid : ∀ c ∈ (if id = 0 then [] else str " id=" ++ decimal id), c ≠ 35 ∧ c ≠ 0 := by
            split
            · exact nofun
            · rw [List.forall_mem_append]
              refine ⟨by decide +kernel, fun c hc => ?_⟩
              obtain ⟨-, -, -, -, -, -, hzero, hhash⟩ := of_mem_decimal hc
              exact ⟨hhash, hzero⟩
          rw [writeSymbol, List.forall_mem_append, List.forall_mem_append, List.forall_mem_append]
          refine ⟨⟨⟨by decide +kernel, fun c hc => ?_⟩, hid⟩, by decide +kernel⟩
          obtain ⟨-, -, -, hhash, hzero, -⟩ := hname.bytes c hc
          exact ⟨hhash, hzero⟩

/-- Nothing of the line is a comment, and its blanks are kept, but for the one before an
empty rule. -/
theorem cleanLine_written {name text : Bytes} (hname : ∀ c ∈ name, c ≠ 62 ∧ c ≠ 35 ∧ c ≠ 0)
    (htext : ∀ c ∈ text, c ≠ 35 ∧ c ≠ 0)
    (htrailing : ∀ c, text.getLast? = some c → isBlank c = false) :
    beforeZero (cleanLine (str "<" ++ name ++ str "> = " ++ text)) =
      str "<" ++ name ++ str "> =" ++ if text = [] then [] else 32 :: text := by
  have hall : ∀ c ∈ str "<" ++ name ++ str "> = " ++ text, c ≠ 35 ∧ c ≠ 0 := by
    rw [List.forall_mem_append, List.forall_mem_append, List.forall_mem_append]
    exact ⟨⟨⟨by decide +kernel, fun c hc => (hname c hc).2⟩, by decide +kernel⟩, htext⟩
  have hcomment : (str "<" ++ name ++ str "> = " ++ text).takeWhile (· ≠ 35) =
      str "<" ++ name ++ str "> = " ++ text :=
    List.takeWhile_eq_self_iff.2 fun c hc => by simpa using (hall c hc).1
  have hclean : cleanLine (str "<" ++ name ++ str "> = " ++ text) =
      str "<" ++ name ++ str "> =" ++ if text = [] then [] else 32 :: text := by
    rw [cleanLine, hcomment]
    rcases List.eq_nil_or_concat text with rfl | ⟨init, last, rfl⟩
    · have hsplit : str "<" ++ name ++ str "> = " ++ [] = str "<" ++ name ++ str "> " ++ [61] ++ [32] := by
        simp [str]
      rw [hsplit, List.rdropWhile_concat_pos _ _ _ rfl, List.rdropWhile_concat_neg _ _ _ (by decide)]
      simp [str]
    · rw [List.concat_eq_append] at htrailing ⊢
      have hlast : isBlank last = false := htrailing last (by rw [List.getLast?_append]; rfl)
      rw [← List.append_assoc, List.rdropWhile_concat_neg _ _ _ (by simp [hlast]), if_neg (by simp)]
      simp [str]
  rw [beforeZero, List.takeWhile_eq_self_iff.2]
  · exact hclean
  · intro c hc
    have hmem : c ∈ str "<" ++ name ++ str "> = " ++ text := by
      rw [← hcomment]
      exact (List.rdropWhile_prefix _ _).subset hc
    simpa using (hall c hmem).2

/-- **The line of a rule is read**, however it is written: `ParseGrammarLine` accepts it, and has
the symbol and the parts of the rule, its ids and attributes included.  -/
theorem readLine_written (g : Grammar) {name text : Bytes} {parts : List RulePart}
    (hne : name ≠ []) (hname : ∀ c ∈ name, c ≠ 62 ∧ c ≠ 35 ∧ c ≠ 0)
    (hwritable : ∀ part ∈ parts, Writable part) (hadjacent : NoAdjacentStrings parts)
    (hw : WritesRule parts text) :
    ∃ l, readLine g (str "<" ++ name ++ str "> = " ++ text) = some l ∧ l.generates = name ∧
      l.parts = parts := by
  have hleft := through_left g hne fun c hc => ⟨(hname c hc).1, (hname c hc).2.2⟩
  rw [readLine, cleanLine_written hname (hw.parts.bytes hwritable) hw.trailing]
  by_cases htext : text = []
  · rw [if_pos htext, List.append_nil]
    have hparts : parts = [] := by
      cases hw.parts with
      | nil => rfl
      | @cons part parts text text' hpart _ =>
          have htext' : text = [] := (List.append_eq_nil_iff.1 htext).1
          have hthis := hwritable part List.mem_cons_self
          cases part with
          | string value =>
              rw [htext'] at hpart
              cases hpart
              exact absurd rfl hthis
          | symbol name id attributes =>
              rw [WritesPart, htext', writeSymbol] at hpart
              simp [str] at hpart
    subst hparts
    exact ⟨_, hleft.append (Through.cons rfl (Through.nil _)), rfl, rfl⟩
  · rw [if_neg htext]
    have hstart : HasRead ⟨g, .equalSpace, name, name, [], [], name, []⟩ name [] :=
      ⟨rfl, rfl, Or.inl ⟨Or.inl rfl, rfl⟩⟩
    obtain ⟨l, hthrough, hreads⟩ := hstart.parts_through hw.parts hwritable hadjacent
    obtain ⟨l', hstep, hgenerates, hparts⟩ := hreads.finish
    have hall : Through (Line.start g) (str "<" ++ name ++ str "> =" ++ 32 :: text ++ [0]) l' :=
      (hleft.append (Through.cons rfl hthrough)).append (Through.cons hstep (Through.nil l'))
    exact ⟨l', hall, hgenerates, hparts⟩

/-- **Every rule can be written, and `ParseGrammarLine` reads it back** from every way of
writing it: with each byte of a string as it is or as a hexadecimal symbol, in tags with and
without ids.  It accepts the line, creates the symbols that it names, and adds this rule and
no other.  -/
theorem parse_written_rule (g : Grammar) {name : Bytes} {parts : List RulePart} (hne : name ≠ [])
    (hname : ∀ c ∈ name, c ≠ 62 ∧ c ≠ 35 ∧ c ≠ 0)
    (hwritable : ∀ part ∈ parts, Writable part) (hadjacent : NoAdjacentStrings parts) :
    WritesRule parts (escapeParts parts) ∧ ∀ text, WritesRule parts text →
      ∃ g', parseGrammarLine g (str "<" ++ name ++ str "> = " ++ text) = some g' ∧
        Adds g g' ⟨name, parts⟩ := by
  refine ⟨writesRule_escapeParts hwritable, fun text hw => ?_⟩
  obtain ⟨l, hl, rfl, rfl⟩ := readLine_written g hne hname hwritable hadjacent hw
  refine parseGrammarLine_of_readLine (fun hclean => ?_) hl
  have hwritten := cleanLine_written hname (hw.parts.bytes hwritable) hw.trailing
  rw [hclean] at hwritten
  simp [beforeZero, str] at hwritten

/-- A string with a `<` and with a blank of its own, a symbol with an id, and a blank. -/
def writtenParts : List RulePart :=
  [.string (str "a <"), .symbol (str "b") 7 [(str "id", str "7")], .string (str " ")]

/-- **A line with every kind of part** is read back: a string, a hex string that stands for
a character with a meaning, a symbol with an id, and a blank at the end that has to be
written in hex.  -/
theorem parse_written_rule_root : ∃ g',
    parseGrammarLine empty (str "<root> = a <0x3C><b id=7><0x20>") = some g' ∧
      Adds empty g' ⟨str "root", writtenParts⟩ := by
  have hname : IsSymbolName (str "b") := ⟨by decide, by decide +kernel, by decide, by decide⟩
  have hwritable : ∀ part ∈ writtenParts, Writable part := by
    intro part hpart
    have hcases : part = .string (str "a <") ∨ part = .symbol (str "b") 7 [(str "id", str "7")] ∨
        part = .string (str " ") := by simpa [writtenParts] using hpart
    rcases hcases with rfl | rfl | rfl
    · exact (by decide : str "a <" ≠ [])
    · exact ⟨hname, Or.inr ⟨by decide, by decide, by decide +kernel⟩⟩
    · exact (by decide : str " " ≠ [])
  have hadjacent : NoAdjacentStrings writtenParts := by
    intro a u v b h
    rcases a with _ | ⟨x, _ | ⟨y, _ | ⟨z, a⟩⟩⟩ <;> simp [writtenParts] at h
  obtain ⟨hw, hread⟩ := @parse_written_rule empty (str "root") _ (by decide)
    (by decide +kernel) hwritable hadjacent
  obtain ⟨g', h, hadds⟩ := hread _ hw
  refine ⟨g', ?_, hadds⟩
  rw [← h]
  exact congrArg (parseGrammarLine empty) (by decide +kernel)

end Grammar
end Jackalope
