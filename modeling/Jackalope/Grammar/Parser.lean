/-
# Reading a grammar

`ParseGrammarLine` and `Read` of `grammar.cpp`.  A line is read byte by byte by an
automaton with the states `ParseState`; `Line` has the variables of its loop.  The
pointers `symbolstart` and `str` into the line are only used for the text between
them, so that text is there instead, in the states that go on to use it.

`none` is a function that returned 0, and then nothing that it changed is looked at.
The automaton only ever touches the symbol table through `AddRulePart`
(`step_cases`), so a grammar that is read has no dangling pointers (`read_sound`).
-/

import Jackalope.Grammar.Symbols
import Mathlib.Data.List.DropRight

namespace Jackalope
namespace Grammar

/-! ### Parts of a rule -/

/-- The map `constants`. -/
def constants : List (Bytes × Bytes) :=
  [(str "lt", str "<"), (str "gt", str ">"), (str "hash", str "#"), (str "cr", [0x0d]),
    (str "lf", [0x0a]), (str "crlf", [0x0d, 0x0a]), (str "space", str " "), (str "tab", [0x09])]

/-- The value of a hexadecimal digit. -/
def hexDigit (c : UInt8) : Option UInt8 :=
  if 48 ≤ c ∧ c ≤ 57 then some (c - 48)
  else if 97 ≤ c ∧ c ≤ 102 then some (c - 97 + 10)
  else if 65 ≤ c ∧ c ≤ 70 then some (c - 65 + 10)
  else none

/-- The loop of `HexStringToString`: two digits are a byte. -/
def hexPairs : Bytes → Option Bytes
  | prev :: cur :: hex => do
      let prevValue ← hexDigit prev
      let curValue ← hexDigit cur
      let out ← hexPairs hex
      some (((prevValue <<< 4) + curValue) :: out)
  | _ => some []

/-- `HexStringToString`, which skips the `0x`. -/
def hexStringToString (hex : Bytes) : Option Bytes :=
  if hex.length % 2 ≠ 0 then none else hexPairs (hex.drop 2)

/-- `isspace`. -/
def isSpace (c : UInt8) : Bool := c = 32 || (9 ≤ c && c ≤ 13)

/-- `isdigit`. -/
def isDigit (c : UInt8) : Bool := 48 ≤ c && c ≤ 57

/-- `atoi`: what `strtol` gives, cut to 32 bits. -/
def atoi (s : Bytes) : ℤ :=
  let s := s.dropWhile isSpace
  let negative := s.head? = some 45
  let s := if s.head? = some 43 ∨ negative then s.tail else s
  let n : ℤ := numeral (s.takeWhile isDigit)
  Int.bmod (if negative then max (-n) (-2 ^ 63) else min n (2 ^ 63 - 1)) (2 ^ 32)

/-- `attributes[name] = value`. -/
def Attributes.set (attributes : Attributes) (name value : Bytes) : Attributes :=
  (name, value) :: attributes.filter fun a => a.1 ≠ name

/-- `RulePart::SetAttributes`: the id. -/
def setAttributes (attributes : Attributes) : Option ℕ :=
  match attributes.lookup (str "id") with
  | some value => if 0 < atoi value then some (atoi value).toNat else none
  | none => some 0

/-- `AddRulePart` for a string: it is merged with a string before it. -/
def addString (parts : List RulePart) (value : Bytes) : List RulePart :=
  match parts.getLast? with
  | some (.string last) => parts.dropLast ++ [.string (last ++ value)]
  | _ => parts ++ [.string value]

/-! ### The automaton -/

/-- `Grammar::ParseState`. -/
inductive ParseState
  | lineStart
  | generatorSymbol
  | generatorSymbolEnd
  | equal
  | equalSpace
  | symbol
  | symbolEnd
  | string
  | symbolSpace
  | attrName
  | attrValue
  deriving DecidableEq

/-- The variables of `ParseGrammarLine`, with the grammar; `generates` and `parts` are
those of `newrule`. -/
structure Line where
  grammar : Grammar
  state : ParseState
  text : Bytes
  symbolname : Bytes
  attrname : Bytes
  attributes : Attributes
  generates : Bytes
  parts : List RulePart

/-- The variables before the loop. -/
def Line.start (g : Grammar) : Line := ⟨g, .lineStart, [], [], [], [], [], []⟩

/-- `AddRulePart(&newrule, STRINGTYPE, value, attributes)`. -/
def Line.addString (l : Line) (value : Bytes) : Line :=
  { l with parts := Grammar.addString l.parts value }

/-- `AddRulePart(&newrule, SYMBOLTYPE, symbolname, attributes)`.  Only a symbol that is
neither a constant nor hexadecimal takes the attributes. -/
def Line.addSymbol (l : Line) : Option Line :=
  match constants.lookup l.symbolname with
  | some value => some (l.addString value)
  | none =>
      if str "0x" <+: l.symbolname then (hexStringToString l.symbolname).map l.addString
      else (setAttributes l.attributes).map fun id =>
        { l with
          grammar := l.grammar.getOrCreateSymbol l.symbolname
          parts := l.parts ++ [.symbol l.symbolname id l.attributes]
          attributes := [] }

/-- A blank. -/
def isBlank (c : UInt8) : Bool := c = 0x20 || c = 0x09

/-- The round of the loop for the byte `c`; the byte behind the line is 0. -/
def step (l : Line) (c : UInt8) : Option Line :=
  match l.state with
  | .lineStart =>
      if isBlank c then some l
      else if c = 60 then some { l with state := .generatorSymbol, text := [] }
      else none
  | .generatorSymbol =>
      if c = 62 then
        if l.text = [] then none
        else some { l with
          state := .generatorSymbolEnd, symbolname := l.text, generates := l.text }
      else if c = 0 then none
      else some { l with text := l.text ++ [c] }
  | .generatorSymbolEnd =>
      if isBlank c then some l
      else if c = 61 then some { l with state := .equal }
      else none
  | .equal =>
      if isBlank c then some { l with state := .equalSpace }
      else if c = 60 then some { l with state := .symbol, text := [] }
      else if c = 0 then some l
      else some { l with state := .string, text := [c] }
  | .equalSpace =>
      if c = 60 then some { l with state := .symbol, text := [] }
      else if c = 0 then some l
      else some { l with state := .string, text := [c] }
  | .symbol =>
      if isBlank c then
        if l.text = [] then none
        else some { l with state := .symbolSpace, symbolname := l.text }
      else if c = 62 then
        if l.text = [] then none
        else { l with state := .symbolEnd, symbolname := l.text }.addSymbol
      else if c = 0 then none
      else some { l with text := l.text ++ [c] }
  | .symbolSpace =>
      if isBlank c then some l
      else if c = 62 then { l with state := .symbolEnd }.addSymbol
      else if c = 0 then none
      else some { l with state := .attrName, text := [c] }
  | .attrName =>
      if isBlank c then
        if l.text = [] then none
        else some { l with
          state := .symbolSpace, attrname := l.text, attributes := l.attributes.set l.text [] }
      else if c = 61 then
        if l.text = [] then none
        else some { l with state := .attrValue, attrname := l.text, text := [] }
      else if c = 62 then
        if l.text = [] then none
        else { l with
          state := .symbolEnd, attrname := l.text,
          attributes := l.attributes.set l.text [] }.addSymbol
      else if c = 0 then none
      else some { l with text := l.text ++ [c] }
  | .attrValue =>
      if isBlank c then
        some { l with state := .symbolSpace, attributes := l.attributes.set l.attrname l.text }
      else if c = 62 then
        { l with state := .symbolEnd, attributes := l.attributes.set l.attrname l.text }.addSymbol
      else if c = 0 then none
      else some { l with text := l.text ++ [c] }
  | .symbolEnd =>
      if c = 60 then some { l with state := .symbol, text := [] }
      else if c = 0 then some l
      else some { l with state := .string, text := [c] }
  | .string =>
      if c = 60 then
        some ({ l with state := .symbol, symbolname := l.text, text := [] }.addString l.text)
      else if c = 0 then some ({ l with symbolname := l.text }.addString l.text)
      else some { l with text := l.text ++ [c] }

/-- `ParseGrammarLine`.  `c_str()` ends at the first 0 of the line. -/
def parseGrammarLine (g : Grammar) (line : Bytes) : Option Grammar :=
  let cleanline := (line.takeWhile (· ≠ 35)).rdropWhile isBlank
  if cleanline = [] then some g
  else do
    let l ← (cleanline.takeWhile (· ≠ 0) ++ [0]).foldlM step (Line.start g)
    some ((l.grammar.getOrCreateSymbol l.generates).addGenerator l.generates
      ⟨l.generates, l.parts⟩)

/-- What `getline` delivers until the end of the file. -/
def getlines (file : Bytes) : List Bytes :=
  if file = [] ∨ file.getLast? = some 10 then (file.splitOn 10).dropLast else file.splitOn 10

/-- `Read`, where `none` is a file that cannot be opened. -/
def read (file : Option Bytes) : Option Grammar := do
  let bytes ← file
  let g ← (getlines bytes).foldlM parseGrammarLine empty
  if g.analyzeGrammar.checkGrammar then some g.analyzeGrammar else none

/-! ### What a line does to the table -/

/-- What `AddRulePart` does for a symbol: it merges a string, or it adds the symbol, which
is then in the table. -/
theorem addSymbol_cases {l l' : Line} (h : l.addSymbol = some l') :
    (∃ value, l' = l.addString value) ∨
      ∃ id, l'.grammar = l.grammar.getOrCreateSymbol l.symbolname ∧
        l'.parts = l.parts ++ [.symbol l.symbolname id l.attributes] := by
  rw [Line.addSymbol] at h
  split at h
  · cases h
    exact Or.inl ⟨_, rfl⟩
  split at h
  · obtain ⟨value, -, rfl⟩ := Option.map_eq_some_iff.1 h
    exact Or.inl ⟨value, rfl⟩
  · obtain ⟨id, -, rfl⟩ := Option.map_eq_some_iff.1 h
    exact Or.inr ⟨id, rfl, rfl⟩

/-- **A byte changes grammar and rule by `AddRulePart` only**: for a string, which becomes a
part or is appended to one, or for a symbol, which may be created.  -/
theorem step_cases {l l' : Line} {c : UInt8} (h : step l c = some l') :
    (l'.grammar = l.grammar ∧ l'.parts = l.parts) ∨
      (∃ value, l'.grammar = l.grammar ∧ l'.parts = addString l.parts value) ∨
        ∃ l₁ : Line, l₁.grammar = l.grammar ∧ l₁.parts = l.parts ∧ l₁.addSymbol = some l' := by
  unfold step at h
  split at h <;> split_ifs at h
  all_goals first
    | exact Or.inr (Or.inr ⟨_, by rfl, by rfl, h⟩)
    | cases h; exact Or.inl ⟨rfl, rfl⟩
    | cases h; exact Or.inr (Or.inl ⟨l.text, rfl, rfl⟩)

/-- The pointers of the table and of the rule that is read lead to symbols of the table. -/
structure Line.Valid (l : Line) : Prop where
  wellFormed : WellFormed l.grammar
  parts : l.grammar.PartsDefined l.parts

/-- A string adds no pointer, so the parts point to where they pointed before.  -/
theorem PartsDefined.addString {g : Grammar} {parts : List RulePart} (h : g.PartsDefined parts)
    (value : Bytes) : g.PartsDefined (addString parts value) := by
  intro name id attributes hmem
  unfold Grammar.addString at hmem
  split at hmem
  · rcases List.mem_append.1 hmem with hmem | hmem
    · exact h name id attributes (List.mem_of_mem_dropLast hmem)
    · cases List.mem_singleton.1 hmem
  · rcases List.mem_append.1 hmem with hmem | hmem
    · exact h name id attributes hmem
    · cases List.mem_singleton.1 hmem

/-- The symbol of a tag is created if it is not there, so the parts of the rule stay
defined, and a repeat symbol has its own symbol created with it.  -/
theorem Line.Valid.addSymbol {l l' : Line} (hl : l.Valid) (h : l.addSymbol = some l') :
    l'.Valid := by
  rcases addSymbol_cases h with ⟨value, rfl⟩ | ⟨id, hgrammar, hparts⟩
  · exact ⟨hl.wellFormed, hl.parts.addString value⟩
  · obtain ⟨hwf, hdefined, hgrows⟩ := getOrCreateSymbol_spec hl.wellFormed l.symbolname
    refine ⟨by rw [hgrammar]; exact hwf, ?_⟩
    rw [hgrammar, hparts]
    intro name id attributes hmem
    rcases List.mem_append.1 hmem with hmem | hmem
    · exact hl.parts.grows hgrows name id attributes hmem
    · cases List.mem_singleton.1 hmem
      exact hdefined

/-- A byte keeps the pointers valid: the symbols that the parts of the line point to are in
the table, also after `GetOrCreateSymbol` has put new ones into it.  -/
theorem Line.Valid.step {l l' : Line} {c : UInt8} (hl : l.Valid) (h : Grammar.step l c = some l') :
    l'.Valid := by
  rcases step_cases h with ⟨hgrammar, hparts⟩ | ⟨value, hgrammar, hparts⟩ | ⟨l₁, hgrammar, hparts, h⟩
  · refine ⟨by rw [hgrammar]; exact hl.wellFormed, ?_⟩
    rw [hgrammar, hparts]
    exact hl.parts
  · refine ⟨by rw [hgrammar]; exact hl.wellFormed, ?_⟩
    rw [hgrammar, hparts]
    exact hl.parts.addString value
  · have hl₁ : l₁.Valid := by
      refine ⟨by rw [hgrammar]; exact hl.wellFormed, ?_⟩
      rw [hgrammar, hparts]
      exact hl.parts
    exact hl₁.addSymbol h

/-- What each round of a loop keeps holds at its end, if there is one. -/
theorem foldlM_invariant {σ α : Type} {f : σ → α → Option σ} (I : σ → Prop)
    (hstep : ∀ s a s', I s → f s a = some s' → I s') {l : List α} {s s' : σ} (hs : I s)
    (h : l.foldlM f s = some s') : I s' := by
  induction l generalizing s with
  | nil =>
      cases h
      exact hs
  | cons a l ih =>
      rw [List.foldlM_cons] at h
      obtain ⟨t, ht, h⟩ := Option.bind_eq_some_iff.1 h
      exact ih (hstep s a t hs ht) h

/-- **A line that is parsed** keeps the table well formed: the symbols that it names are in
the table, and repeat symbols point to what they repeat.  -/
theorem wellFormed_parseGrammarLine {g g' : Grammar} {line : Bytes} (hg : WellFormed g)
    (h : parseGrammarLine g line = some g') : WellFormed g' := by
  unfold parseGrammarLine at h
  dsimp only at h
  split at h
  · cases h
    exact hg
  · obtain ⟨l, hl, h⟩ := Option.bind_eq_some_iff.1 h
    cases h
    have hstart : (Line.start g).Valid := ⟨hg, fun _ _ _ hmem => absurd hmem List.not_mem_nil⟩
    have hvalid : l.Valid := foldlM_invariant Line.Valid (fun _ _ _ hs h => hs.step h) hstart hl
    obtain ⟨hwf, -, hgrows⟩ := getOrCreateSymbol_spec hvalid.wellFormed l.generates
    exact hwf.addGenerator (hvalid.parts.grows hgrows)

/-- **A grammar for which `Read` returns 1 is sound**: it was put together line by line, and
`CheckGrammar` has looked for a rule of every symbol.  -/
theorem read_sound {file : Option Bytes} {g : Grammar} (h : read file = some g) : g.Sound := by
  obtain ⟨bytes, -, h⟩ := Option.bind_eq_some_iff.1 h
  obtain ⟨g₀, hg₀, h⟩ := Option.bind_eq_some_iff.1 h
  have hwf : WellFormed g₀ :=
    foldlM_invariant WellFormed (fun _ _ _ hg h => wellFormed_parseGrammarLine hg h)
      wellFormed_empty hg₀
  split at h
  · cases h
    exact hwf.sound (by assumption)
  · cases h

end Grammar
end Jackalope
