/-
# What a line adds to a grammar

An accepted line that is not empty adds one rule, at the end of the generators of the
symbol that it begins with, and no other symbol gets or loses a generator
(`parseGrammarLine_adds`).  So the rule is known from the two grammars (`Adds.unique`),
and what is said of the variables of `ParseGrammarLine` when it returns is said of the
rule.
-/

import Jackalope.Grammar.Parser

namespace Jackalope
namespace Grammar

/-! ### The generators of a symbol -/

/-- The generators of the symbol with this name; a symbol that is not there has none. -/
def generatorsOf (g : Grammar) (name : Bytes) : List Rule :=
  match g.getSymbol name with
  | some symbol => symbol.generators
  | none => []

variable {g g' : Grammar} {name other : Bytes}

/-- A new symbol has no generators, so with it in the table every symbol, itself included,
has the generators it had before.  -/
theorem generatorsOf_insert {symbol : Symbol} (hnew : symbol.generators = []) :
    generatorsOf (g.insert symbol) other = generatorsOf g other := by
  have hfind : (g.insert symbol).getSymbol other =
      (g.getSymbol other).or ([symbol].find? fun symbol => symbol.name = other) :=
    List.find?_append
  rw [generatorsOf, hfind, generatorsOf]
  cases g.getSymbol other with
  | some s => rfl
  | none =>
      rw [Option.none_or, List.find?_cons]
      split
      · rename_i s hs
        split at hs
        · cases hs
          exact hnew
        · cases hs
      · rfl

/-- An assignment is seen where the name is looked up, and nowhere else; the names of the
symbols are not assigned to.  -/
theorem getSymbol_modify {f : Symbol → Symbol} (hf : ∀ s, (f s).name = s.name) :
    (g.modify name f).getSymbol other =
      (g.getSymbol other).map fun s => if s.name = name then f s else s := by
  rw [getSymbol, modify, List.find?_map, getSymbol]
  congr 2
  funext s
  show decide ((if s.name = name then f s else s).name = other) = decide (s.name = other)
  split
  · rw [hf s]
  · rfl

/-- An assignment that leaves the generators alone leaves those of every symbol.  -/
theorem generatorsOf_modify {f : Symbol → Symbol} (hf : ∀ s, (f s).name = s.name)
    (hgenerators : ∀ s, (f s).generators = s.generators) :
    generatorsOf (g.modify name f) other = generatorsOf g other := by
  rw [generatorsOf, getSymbol_modify hf, generatorsOf]
  cases g.getSymbol other with
  | none => rfl
  | some s =>
      show (if s.name = name then f s else s).generators = s.generators
      split
      · exact hgenerators s
      · rfl

/-- `GetOrCreateSymbol` gives no symbol a generator, neither the one it is asked for nor
those that it creates along with a repeat symbol.  -/
theorem generatorsOf_getOrCreateSymbol (g : Grammar) (name other : Bytes) :
    generatorsOf (g.getOrCreateSymbol name) other = generatorsOf g other := by
  induction hn : name.length using Nat.strong_induction_on generalizing g name with
  | _ n ih =>
      subst hn
      rw [getOrCreateSymbol]
      split
      · rfl
      split
      · rename_i hrepeat
        have hlength : 7 ≤ name.length := hrepeat.length_le
        have hlt : (name.drop 7).length < name.length := by
          rw [List.length_drop]
          omega
        refine (generatorsOf_modify ?_ ?_).trans ((ih _ hlt _ _ rfl).trans ?_)
        · exact fun _ => rfl
        · exact fun _ => rfl
        · exact generatorsOf_insert rfl
      · exact generatorsOf_insert rfl

/-- The new generator of a symbol that is there comes behind the ones it has; the generators
of the other symbols stay.  -/
theorem generatorsOf_addGenerator {rule : Rule} (h : g.Defined name) :
    generatorsOf (g.addGenerator name rule) other =
      generatorsOf g other ++ if other = name then [rule] else [] := by
  rw [generatorsOf, addGenerator, getSymbol_modify (by exact fun _ => rfl), generatorsOf]
  by_cases hother : other = name
  · subst hother
    obtain ⟨s, hs⟩ := h.getSymbol
    rw [hs, if_pos rfl]
    show (if s.name = other then _ else s).generators = _
    rw [if_pos (getSymbol_mem hs).2]
  · rw [if_neg hother, List.append_nil]
    cases hs : g.getSymbol other with
    | none => rfl
    | some s =>
        show (if s.name = name then _ else s).generators = _
        rw [if_neg fun h => hother ((getSymbol_mem hs).2.symm.trans h)]

/-! ### The rule of a line -/

/-- From `g` to `g'` this rule has been added, and nothing else to any symbol. -/
def Adds (g g' : Grammar) (rule : Rule) : Prop :=
  ∀ name, generatorsOf g' name =
    generatorsOf g name ++ if name = rule.generates then [rule] else []

/-- It is the only one. -/
theorem Adds.unique {rule rule' : Rule} (h : Adds g g' rule) (h' : Adds g g' rule') :
    rule = rule' := by
  have heq := List.append_cancel_left ((h rule.generates).symm.trans (h' rule.generates))
  rw [if_pos rfl] at heq
  split at heq
  · exact (List.cons.inj heq).1
  · cases heq

/-- The line without comment and without the blanks at its end. -/
def cleanLine (line : Bytes) : Bytes := (line.takeWhile (· ≠ 35)).rdropWhile isBlank

/-- The bytes before the first 0. -/
def beforeZero (s : Bytes) : Bytes := s.takeWhile (· ≠ 0)

/-- The variables of `ParseGrammarLine` behind its loop. -/
def readLine (g : Grammar) (line : Bytes) : Option Line :=
  (beforeZero (cleanLine line) ++ [0]).foldlM step (Line.start g)

/-- `ParseGrammarLine` in these terms: an empty line is accepted and adds nothing, and any
other is read and its rule added to the symbol that it generates.  -/
theorem parseGrammarLine_eq (g : Grammar) (line : Bytes) :
    parseGrammarLine g line =
      if cleanLine line = [] then some g
      else (readLine g line).map fun l =>
        (l.grammar.getOrCreateSymbol l.generates).addGenerator l.generates
          ⟨l.generates, l.parts⟩ := by
  rw [parseGrammarLine]
  show (if cleanLine line = [] then some g else (readLine g line).bind _) = _
  congr 1
  cases readLine g line <;> rfl

/-- Before the rule is added, no symbol gets a generator: the automaton of `ParseGrammarLine`
creates the symbols that a line names, and collects the parts.  -/
theorem generatorsOf_readLine {line : Bytes} {l : Line} (h : readLine g line = some l) :
    generatorsOf l.grammar other = generatorsOf g other := by
  refine foldlM_invariant (fun l => generatorsOf l.grammar other = generatorsOf g other) ?_ rfl h
  intro l c l' hl hstep
  rcases step_cases hstep with ⟨hgrammar, -⟩ | ⟨value, hgrammar, -⟩ | ⟨l₁, hgrammar, -, hadd⟩
  · rw [hgrammar]
    exact hl
  · rw [hgrammar]
    exact hl
  · rw [← hgrammar] at hl
    rcases addSymbol_cases hadd with ⟨value, rfl⟩ | ⟨id, hcreate, -⟩
    · exact hl
    · rw [hcreate, generatorsOf_getOrCreateSymbol]
      exact hl

/-- `GetOrCreateSymbol` deletes no symbol: what was defined before it is defined after it,
and keeps what it is.  -/
theorem grows_getOrCreateSymbol (g : Grammar) (name : Bytes) :
    g.Grows (g.getOrCreateSymbol name) := by
  induction hn : name.length using Nat.strong_induction_on generalizing g name with
  | _ n ih =>
      subst hn
      rw [getOrCreateSymbol]
      split
      · exact Grows.refl g
      split
      · rename_i hrepeat
        have hlength : 7 ≤ name.length := hrepeat.length_le
        have hlt : (name.drop 7).length < name.length := by
          rw [List.length_drop]
          omega
        exact fun other hd => (ih _ hlt _ _ rfl other (hd.insert _)).modify fun _ => rfl
      · exact fun other hd => hd.insert _

/-- The symbol that `GetOrCreateSymbol` returns is in the table, whether it was there or was
created.  -/
theorem defined_getOrCreateSymbol (g : Grammar) (name : Bytes) :
    (g.getOrCreateSymbol name).Defined name := by
  rw [getOrCreateSymbol]
  split
  · rename_i hsome
    obtain ⟨symbol, hs⟩ := Option.isSome_iff_exists.1 hsome
    exact defined_of_getSymbol hs
  split
  · refine Defined.modify (fun _ => rfl) ?_
    exact grows_getOrCreateSymbol _ _ name (defined_insert g _)
  · exact defined_insert g (Symbol.create name)

/-- **The rule of a line** that was read is added, and nothing else. -/
theorem adds_of_readLine {line : Bytes} {l : Line} (h : readLine g line = some l) :
    Adds g ((l.grammar.getOrCreateSymbol l.generates).addGenerator l.generates
      ⟨l.generates, l.parts⟩) ⟨l.generates, l.parts⟩ := by
  intro name
  rw [generatorsOf_addGenerator (defined_getOrCreateSymbol _ _), generatorsOf_getOrCreateSymbol,
    generatorsOf_readLine h]

/-- **An accepted line** is empty, or it adds the rule that was read, and all other symbols
keep the rules that they have.  -/
theorem parseGrammarLine_adds {line : Bytes} (h : parseGrammarLine g line = some g') :
    (cleanLine line = [] ∧ g' = g) ∨
      ∃ l, readLine g line = some l ∧ Adds g g' ⟨l.generates, l.parts⟩ := by
  rw [parseGrammarLine_eq] at h
  split at h
  · exact Or.inl ⟨by assumption, (Option.some.inj h).symm⟩
  · obtain ⟨l, hl, rfl⟩ := Option.map_eq_some_iff.1 h
    exact Or.inr ⟨l, hl, adds_of_readLine hl⟩

/-- A line that is read is accepted. -/
theorem parseGrammarLine_of_readLine {line : Bytes} {l : Line}
    (hne : cleanLine line ≠ []) (h : readLine g line = some l) :
    ∃ g', parseGrammarLine g line = some g' ∧ Adds g g' ⟨l.generates, l.parts⟩ := by
  rw [parseGrammarLine_eq, if_neg hne, h]
  exact ⟨_, rfl, adds_of_readLine h⟩

/-- The rule that an accepted line adds is the one that was read: a table tells which rule
was added to it.  -/
theorem Adds.read {line : Bytes} {rule : Rule} (h : parseGrammarLine g line = some g')
    (hrule : Adds g g' rule) :
    ∃ l, readLine g line = some l ∧ rule = ⟨l.generates, l.parts⟩ := by
  rcases parseGrammarLine_adds h with ⟨-, rfl⟩ | ⟨l, hl, hadds⟩
  · have heq := hrule rule.generates
    rw [if_pos rfl] at heq
    simp at heq
  · exact ⟨l, hl, hrule.unique hadds⟩

end Grammar
end Jackalope
