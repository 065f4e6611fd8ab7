/-
# Grammars: symbols, rules, and the symbol table

`Grammar::RulePart`, `Rule` and `Symbol` of `mutators/grammar/grammar.h`, and the
functions of `grammar.cpp` that work on the table `symbols`.  The table has one symbol
a name and deletes none, so a `Symbol*` is the name of the symbol.  What is only ever
printed (`used`, line numbers, messages) is left out.

A table is well formed when no pointer in it dangles: each repeat symbol points to a
symbol that is there, and so does each part of a rule.  `GetOrCreateSymbol` enters a
repeat symbol before the one that it repeats, so in between it is well formed but for
the names that are `pending`.
-/

import Jackalope.Names

namespace Jackalope

namespace Grammar

/-- An `unordered_map` from names of attributes to their values. -/
abbrev Attributes := List (Bytes × Bytes)

/-- `Grammar::RulePart`: a string, or the symbol `GetOrCreateSymbol(value)`. -/
inductive RulePart
  | string (value : Bytes)
  | symbol (value : Bytes) (id : ℕ) (attributes : Attributes)
  deriving DecidableEq

/-- `part->id`, which is 0 when it is not set. -/
def RulePart.id : RulePart → ℕ
  | string _ => 0
  | symbol _ id _ => id

/-- `Grammar::Rule`. -/
structure Rule where
  generates : Bytes
  parts : List RulePart
  deriving DecidableEq

/-- `Grammar::Symbol`.  `isRepeat` is its field `repeat`; `none` is a pointer that is
not set. -/
structure Symbol where
  name : Bytes
  isRepeat : Bool
  repeatSymbol : Option Bytes
  canBeEmpty : Bool
  generators : List Rule
  deriving DecidableEq

/-- The constructor of `Symbol`. -/
def Symbol.create (name : Bytes) : Symbol := ⟨name, false, none, false, []⟩

end Grammar

/-- The symbols of a `Grammar`, oldest first. -/
structure Grammar where
  symbols : List Grammar.Symbol
  deriving DecidableEq

namespace Grammar

/-- The table of a new grammar. -/
def empty : Grammar := ⟨[]⟩

/-- `GetSymbol`. -/
def getSymbol (g : Grammar) (name : Bytes) : Option Symbol :=
  g.symbols.find? fun symbol => symbol.name = name

/-- `symbols[symbol->name] = symbol` for a new name. -/
def insert (g : Grammar) (symbol : Symbol) : Grammar := ⟨g.symbols ++ [symbol]⟩

/-- An assignment through a `Symbol*`. -/
def modify (g : Grammar) (name : Bytes) (f : Symbol → Symbol) : Grammar :=
  ⟨g.symbols.map fun symbol => if symbol.name = name then f symbol else symbol⟩

/-- `GetOrCreateSymbol`. -/
def getOrCreateSymbol (g : Grammar) (name : Bytes) : Grammar :=
  if (g.getSymbol name).isSome then g
  else if _h : str "repeat_" <+: name then
    let repeatName := name.drop 7
    ((g.insert { Symbol.create name with isRepeat := true }).getOrCreateSymbol repeatName).modify
      name fun symbol => { symbol with repeatSymbol := some repeatName }
  else g.insert (Symbol.create name)
termination_by name.length
decreasing_by
  have hlength : 7 ≤ name.length := _h.length_le
  rw [List.length_drop]
  omega

/-- `symbol->generators.push_back(rule)`. -/
def addGenerator (g : Grammar) (name : Bytes) (rule : Rule) : Grammar :=
  g.modify name fun symbol => { symbol with generators := symbol.generators ++ [rule] }

/-- `AnalyzeGrammar`. -/
def analyzeGrammar (g : Grammar) : Grammar :=
  ⟨g.symbols.map fun symbol =>
    { symbol with canBeEmpty := symbol.generators.any fun rule => rule.parts.isEmpty }⟩

/-- `CheckGrammar`. -/
def checkGrammar (g : Grammar) : Bool :=
  g.symbols.all fun symbol => !(symbol.generators.isEmpty && !symbol.isRepeat)

/-! ### Lookup -/

/-- A symbol of this name is in the table. -/
def Defined (g : Grammar) (name : Bytes) : Prop := ∃ symbol ∈ g.symbols, symbol.name = name

variable {g : Grammar} {name other : Bytes} {symbol : Symbol}

/-- What `GetSymbol` finds is a symbol of the grammar, with the name that it was asked for.
-/
theorem getSymbol_mem (h : g.getSymbol name = some symbol) :
    symbol ∈ g.symbols ∧ symbol.name = name := by
  have hname := List.find?_some h
  exact ⟨List.mem_of_find?_eq_some h, by simpa using hname⟩

/-- A symbol that is found is defined.  -/
theorem defined_of_getSymbol (h : g.getSymbol name = some symbol) : g.Defined name := by
  obtain ⟨hmem, hname⟩ := getSymbol_mem h
  exact ⟨symbol, hmem, hname⟩

/-- A pointer to a symbol of the table can be followed. -/
theorem Defined.getSymbol (h : g.Defined name) : ∃ symbol, g.getSymbol name = some symbol := by
  obtain ⟨symbol, hmem, hname⟩ := h
  have hsome : (g.getSymbol name).isSome := by
    rw [Grammar.getSymbol, List.find?_isSome]
    exact ⟨symbol, hmem, by simpa using hname⟩
  exact Option.isSome_iff_exists.1 hsome

/-- A symbol stays defined when another one is inserted, or its own entry replaced.  -/
theorem Defined.insert (h : g.Defined name) (symbol : Symbol) : (g.insert symbol).Defined name := by
  obtain ⟨s, hmem, hname⟩ := h
  exact ⟨s, List.mem_append_left _ hmem, hname⟩

/-- A symbol that was inserted is defined.  -/
theorem defined_insert (g : Grammar) (symbol : Symbol) : (g.insert symbol).Defined symbol.name :=
  ⟨symbol, List.mem_append_right _ (List.mem_singleton_self _), rfl⟩

/-- An assignment that leaves the names alone leaves the pointers alone. -/
theorem Defined.modify {f : Symbol → Symbol} (hf : ∀ s, (f s).name = s.name) (h : g.Defined name) :
    (g.modify other f).Defined name := by
  obtain ⟨s, hmem, hname⟩ := h
  refine ⟨_, List.mem_map_of_mem hmem, ?_⟩
  split
  · exact (hf s).trans hname
  · exact hname

/-- The symbols after an assignment. -/
theorem mem_modify {f : Symbol → Symbol} (h : symbol ∈ (g.modify name f).symbols) :
    ∃ s ∈ g.symbols, (s.name = name ∧ symbol = f s) ∨ (s.name ≠ name ∧ symbol = s) := by
  obtain ⟨s, hs, rfl⟩ := List.mem_map.1 h
  refine ⟨s, hs, ?_⟩
  split
  · exact Or.inl ⟨by assumption, rfl⟩
  · exact Or.inr ⟨by assumption, rfl⟩

/-! ### No pointer dangles -/

/-- The symbols that the parts of a rule point to are there. -/
def PartsDefined (g : Grammar) (parts : List RulePart) : Prop :=
  ∀ value id attributes, RulePart.symbol value id attributes ∈ parts → g.Defined value

/-- Pointers lead to symbols of the table, but for the repeat symbols that are
`pending`. -/
structure WellFormedBut (pending : List Bytes) (g : Grammar) : Prop where
  repeatSymbol : ∀ s ∈ g.symbols, s.isRepeat = true → s.name ∉ pending →
    ∃ r, s.repeatSymbol = some r ∧ g.Defined r
  parts : ∀ s ∈ g.symbols, ∀ rule ∈ s.generators, g.PartsDefined rule.parts

/-- Pointers lead to symbols of the table. -/
abbrev WellFormed (g : Grammar) : Prop := WellFormedBut [] g

/-- `g'` has the symbols of `g`, and may have more. -/
def Grows (g g' : Grammar) : Prop := ∀ name, g.Defined name → g'.Defined name

variable {pending : List Bytes}

/-- A grammar has its own symbols.  -/
theorem Grows.refl (g : Grammar) : g.Grows g := fun _ h => h

/-- The parts of a rule stay defined while the grammar grows.  -/
theorem PartsDefined.grows {g' : Grammar} {parts : List RulePart} (h : g.PartsDefined parts)
    (hg : g.Grows g') : g'.PartsDefined parts :=
  fun value id attributes hmem => hg value (h value id attributes hmem)

/-- The empty grammar, with which `Read` begins, is well formed.  -/
theorem wellFormed_empty : WellFormed empty where
  repeatSymbol _ hs := absurd hs List.not_mem_nil
  parts _ hs := absurd hs List.not_mem_nil

/-- A new symbol has no rules; if it is a repeat symbol, it is pending: its `repeat_symbol`
is null until the symbol that it repeats has been found or created.  -/
theorem WellFormedBut.insert (h : WellFormedBut pending g) (hnew : symbol.generators = [])
    {pending' : List Bytes} (hpending : pending ⊆ pending')
    (hrepeat : symbol.isRepeat = true → symbol.name ∈ pending') :
    WellFormedBut pending' (g.insert symbol) where
  repeatSymbol s hs hr hp := by
    rcases List.mem_append.1 hs with hs | hs
    · obtain ⟨r, hsr, hd⟩ := h.repeatSymbol s hs hr fun hp' => hp (hpending hp')
      exact ⟨r, hsr, hd.insert symbol⟩
    · cases List.mem_singleton.1 hs
      exact absurd (hrepeat hr) hp
  parts s hs rule hrule := by
    rcases List.mem_append.1 hs with hs | hs
    · exact (h.parts s hs rule hrule).grows fun _ hd => hd.insert symbol
    · cases List.mem_singleton.1 hs
      rw [hnew] at hrule
      exact absurd hrule List.not_mem_nil

/-- The repeat symbol that was pending gets its pointer, which is to a symbol of the table,
so there is one pending symbol less.  -/
theorem WellFormedBut.setRepeatSymbol (h : WellFormedBut (name :: pending) g)
    (hd : g.Defined other) :
    WellFormedBut pending (g.modify name fun s => { s with repeatSymbol := some other }) where
  repeatSymbol s hs hr hp := by
    have hgrows : g.Grows (g.modify name fun s => { s with repeatSymbol := some other }) :=
      fun _ hd => hd.modify fun _ => rfl
    obtain ⟨s₀, hs₀, ⟨-, rfl⟩ | ⟨hne, rfl⟩⟩ := mem_modify hs
    · exact ⟨other, rfl, hgrows _ hd⟩
    · obtain ⟨r, hsr, hd'⟩ := h.repeatSymbol s hs₀ hr (List.not_mem_cons_of_ne_of_not_mem hne hp)
      exact ⟨r, hsr, hgrows _ hd'⟩
  parts s hs rule hrule := by
    refine PartsDefined.grows (g := g) ?_ fun _ hd => hd.modify fun _ => rfl
    obtain ⟨s₀, hs₀, ⟨-, rfl⟩ | ⟨-, rfl⟩⟩ := mem_modify hs
    · exact h.parts s₀ hs₀ rule hrule
    · exact h.parts s hs₀ rule hrule

/-- Adding a rule keeps all symbols.  -/
theorem grows_addGenerator (g : Grammar) (name : Bytes) (rule : Rule) :
    g.Grows (g.addGenerator name rule) := fun _ hd => hd.modify fun _ => rfl

/-- **A rule whose parts are defined may be added** to any symbol, also to one of those that
have still to get a rule.  -/
theorem WellFormedBut.addGenerator {rule : Rule} (h : WellFormedBut pending g)
    (hparts : g.PartsDefined rule.parts) : WellFormedBut pending (g.addGenerator name rule) where
  repeatSymbol s hs hr hp := by
    obtain ⟨s₀, hs₀, ⟨-, rfl⟩ | ⟨-, rfl⟩⟩ := mem_modify hs
    · obtain ⟨r, hsr, hd⟩ := h.repeatSymbol s₀ hs₀ hr hp
      exact ⟨r, hsr, grows_addGenerator g name rule r hd⟩
    · obtain ⟨r, hsr, hd⟩ := h.repeatSymbol s hs₀ hr hp
      exact ⟨r, hsr, grows_addGenerator g name rule r hd⟩
  parts s hs rule' hrule := by
    refine PartsDefined.grows (g := g) ?_ (grows_addGenerator g name rule)
    obtain ⟨s₀, hs₀, ⟨-, rfl⟩ | ⟨-, rfl⟩⟩ := mem_modify hs
    · rcases List.mem_append.1 hrule with hrule | hrule
      · exact h.parts s₀ hs₀ rule' hrule
      · cases List.mem_singleton.1 hrule
        exact hparts
    · exact h.parts s hs₀ rule' hrule

/-- **`GetOrCreateSymbol` gives a symbol of the table**, loses none, and leaves nothing
pending that was not: for `repeat_x` it creates `x` as well, and sets the pointer.  -/
theorem getOrCreateSymbol_spec (h : WellFormedBut pending g) (name : Bytes) :
    WellFormedBut pending (g.getOrCreateSymbol name) ∧ (g.getOrCreateSymbol name).Defined name ∧
      g.Grows (g.getOrCreateSymbol name) := by
  induction hn : name.length using Nat.strong_induction_on generalizing g name pending with
  | _ n ih =>
      subst hn
      rw [getOrCreateSymbol]
      split
      · rename_i hsome
        obtain ⟨symbol, hs⟩ := Option.isSome_iff_exists.1 hsome
        exact ⟨h, defined_of_getSymbol hs, Grows.refl g⟩
      split
      · rename_i hrepeat
        have hlength : 7 ≤ name.length := hrepeat.length_le
        have hlt : (name.drop 7).length < name.length := by
          rw [List.length_drop]
          omega
        have hinsert : WellFormedBut (name :: pending)
            (g.insert { Symbol.create name with isRepeat := true }) :=
          h.insert rfl (List.subset_cons_self _ _) fun _ => List.mem_cons_self
        obtain ⟨hwf, hdefined, hgrows⟩ := ih _ hlt hinsert _ rfl
        refine ⟨hwf.setRepeatSymbol hdefined, ?_, fun other hd => ?_⟩
        · exact (hgrows name (defined_insert g _)).modify fun _ => rfl
        · exact (hgrows other (hd.insert _)).modify fun _ => rfl
      · refine ⟨?_, defined_insert g (Symbol.create name), fun other hd => hd.insert _⟩
        exact h.insert rfl (List.Subset.refl _) fun hr => absurd hr Bool.false_ne_true

/-! ### The grammar that is used -/

/-- What the users of a grammar rely on: no pointer dangles, every symbol that is not a
repeat symbol has a rule, and one that is marked as possibly empty has an empty rule. -/
structure Sound (g : Grammar) : Prop where
  repeatSymbol : ∀ s ∈ g.symbols, s.isRepeat = true → ∃ r, s.repeatSymbol = some r ∧ g.Defined r
  parts : ∀ s ∈ g.symbols, ∀ rule ∈ s.generators, g.PartsDefined rule.parts
  generators : ∀ s ∈ g.symbols, s.isRepeat = false → s.generators ≠ []
  canBeEmpty : ∀ s ∈ g.symbols, s.canBeEmpty = true → ∃ rule ∈ s.generators, rule.parts = []

/-- `AnalyzeGrammar` only sets flags.  -/
theorem defined_analyzeGrammar (h : g.Defined name) : g.analyzeGrammar.Defined name := by
  obtain ⟨s, hmem, hname⟩ := h
  exact ⟨_, List.mem_map_of_mem hmem, hname⟩

/-- **A well-formed table that passes `CheckGrammar` is sound**: what the parts and the
repeat symbols point to is in the table, and every symbol that is generated from rules has
one.  -/
theorem WellFormedBut.sound (h : WellFormed g) (hcheck : g.analyzeGrammar.checkGrammar = true) :
    g.analyzeGrammar.Sound where
  repeatSymbol s hs hr := by
    obtain ⟨s₀, hs₀, rfl⟩ := List.mem_map.1 hs
    obtain ⟨r, hsr, hd⟩ := h.repeatSymbol s₀ hs₀ hr List.not_mem_nil
    exact ⟨r, hsr, defined_analyzeGrammar hd⟩
  parts s hs rule hrule := by
    obtain ⟨s₀, hs₀, rfl⟩ := List.mem_map.1 hs
    exact (h.parts s₀ hs₀ rule hrule).grows fun _ => defined_analyzeGrammar
  generators s hs hr hempty := by
    have := List.all_eq_true.1 hcheck s hs
    simp [hr, hempty] at this
  canBeEmpty s hs hempty := by
    obtain ⟨s₀, hs₀, rfl⟩ := List.mem_map.1 hs
    obtain ⟨rule, hrule, hparts⟩ := List.any_eq_true.1 hempty
    exact ⟨rule, hrule, List.isEmpty_iff.1 hparts⟩

end Grammar
end Jackalope
