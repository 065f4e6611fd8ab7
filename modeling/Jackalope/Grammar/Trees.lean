/-
# Trees of a grammar

`Grammar::TreeNode`, `ToString` and `GenerateTree` of `grammar.cpp`.  A node has a
string or a symbol.  Strings are never changed, so a pointer to one is the string.

A tree conforms to a grammar if at each symbol node the labels of the children follow
a rule of the symbol (`Follows`), or, at a repeat symbol, are all the symbol that it
repeats.  A part of a rule with an id may be filled by the symbol of an earlier part
with the same id, because `GenerateTree` copies the node that was made for that part.

`generateTree_spec` says what `GenerateTree` gives: `NULL` or a conforming tree, and
nothing undefined on the way.
-/

import Jackalope.Foundation.Tree
import Jackalope.Grammar.Parser
import Jackalope.Prng

namespace Jackalope
namespace Grammar

open Foundation Foundation.Consumer

/-- What a `TreeNode` has besides children: its type, and the member of the union that
goes with it. -/
inductive NodeData
  | string (value : Bytes)
  | symbol (name : Bytes)
  deriving DecidableEq

/-- `Grammar::TreeNode`. -/
abbrev TreeNode := Foundation.Tree NodeData

/-- `ToString`. -/
def toString : TreeNode → Bytes :=
  Foundation.Tree.fold fun data outs =>
    match data with
    | .string value => value
    | .symbol _ => outs.flatten

/-! ### Conforming trees -/

/-- The label can stand for the part of a rule that comes after the parts `before`. -/
def RulePart.Fits (before : List RulePart) : RulePart → NodeData → Prop
  | .string value, data => data = .string value
  | .symbol name id _, data =>
      data = .symbol name ∨
        id ≠ 0 ∧ ∃ name' attributes, .symbol name' id attributes ∈ before ∧ data = .symbol name'

/-- The labels match the parts of a rule in number and order. -/
def PartsFit (parts : List RulePart) (labels : List NodeData) : Prop :=
  parts.length = labels.length ∧
    ∀ (i : ℕ) (part : RulePart) (data : NodeData), parts[i]? = some part → labels[i]? = some data →
      part.Fits (parts.take i) data

/-- A node with this label may have children with these labels. -/
def Licensed (g : Grammar) : NodeData → List NodeData → Prop
  | .string _, _ => True
  | .symbol name, labels => ∃ symbol, g.getSymbol name = some symbol ∧
      if symbol.isRepeat then ∃ r, symbol.repeatSymbol = some r ∧ ∀ data ∈ labels, data = .symbol r
      else ∃ rule ∈ symbol.generators, PartsFit rule.parts labels

/-- Every node of the tree has the children that the grammar allows. -/
abbrev Conforming (g : Grammar) (tree : TreeNode) : Prop := Foundation.Tree.Follows g.Licensed tree

/-- A conforming tree of a symbol. -/
def ConformingOf (g : Grammar) (name : Bytes) (tree : TreeNode) : Prop :=
  tree.label = .symbol name ∧ g.Conforming tree

/-! ### `GenerateTree` -/

/-- `MAX_DEPTH`. -/
def maxDepth : ℕ := 100

/-- `GenerateStringNode`. -/
def generateStringNode (string : Bytes) : TreeNode := Foundation.Tree.node (.string string) []

/-- Follow a `Symbol*`. -/
def deref (g : Grammar) (name : Option Bytes) : Draws Symbol :=
  match name.bind g.getSymbol with
  | some symbol => pure symbol
  | none => fail .undefined

/-- The last of the parts before that has this id, if the id is set. -/
def findId (before : List RulePart) (id : ℕ) : Option ℕ :=
  if id = 0 then none
  else (before.zipIdx.filter fun (part, _) => part.id = id).getLast?.map Prod.snd

/-- One more child, for the next part: a string, a copy of an earlier child, or a new
tree, which may fail. -/
def generatePart (generate : Bytes → Draws (Option TreeNode)) (before : List RulePart)
    (children : List TreeNode) : RulePart → Draws (Option TreeNode)
  | .string value => pure (some (generateStringNode value))
  | .symbol name id _ =>
      match findId before id with
      | some foundIndex =>
          match children[foundIndex]? with
          | some child => pure (some child)
          | none => fail .undefined
      | none => generate name

/-- The loop over the parts of a rule. -/
def generateParts (generate : Bytes → Draws (Option TreeNode)) (before : List RulePart) :
    List RulePart → List TreeNode → Draws (Option (List TreeNode))
  | [], children => pure (some children)
  | part :: parts, children => do
      match ← generatePart generate before children part with
      | none => pure none
      | some child => generateParts generate (before ++ [part]) parts (children ++ [child])

/-- A round of the loop over the children of a repeat symbol. -/
def repeatBody (generate : Option Bytes → Draws (Option TreeNode)) (repeatSymbol : Option Bytes)
    (children : List TreeNode) : Draws (List TreeNode ⊕ Option (List TreeNode)) := do
  let r ← rand
  if over75 r then pure (.inr (some children))
  else
    match ← generate repeatSymbol with
    | none => pure (.inr none)
    | some child => pure (.inl (children ++ [child]))

/-- The children of a new node: trees of the symbol that a repeat symbol repeats, or
what the parts of a random rule give. -/
def generateChildren (generate : Option Bytes → Draws (Option TreeNode)) (symbol : Symbol) :
    Draws (Option (List TreeNode)) :=
  if symbol.isRepeat then loop .noDraws (repeatBody generate symbol.repeatSymbol) []
  else do
    let k ← randMod symbol.generators.length
    match symbol.generators[k]? with
    | some generator => generateParts (fun name => generate (some name)) [] generator.parts []
    | none => fail .undefined

/-- `GenerateTree(symbol, prng, depth)` where `levels` more levels may be generated,
that is, `MAX_DEPTH + 1 - depth`. -/
def generateLevels (g : Grammar) : ℕ → Option Bytes → Draws (Option TreeNode)
  | 0, _ => pure none
  | levels + 1, pointer => do
      let symbol ← g.deref pointer
      let children ← generateChildren (g.generateLevels levels) symbol
      pure (children.map (Foundation.Tree.node (.symbol symbol.name)))

/-- `GenerateTree(symbol, prng, depth)`. -/
def generateTree (g : Grammar) (pointer : Option Bytes) (depth : ℕ) : Draws (Option TreeNode) :=
  g.generateLevels (maxDepth + 1 - depth) pointer

/-- `GenerateTree(name, prng)`. -/
def generateTreeNamed (g : Grammar) (name : Bytes) : Draws (Option TreeNode) :=
  match g.getSymbol name with
  | none => pure none
  | some symbol => g.generateTree (some symbol.name) 0

/-! ### Parts that fit -/

variable {g : Grammar} {name : Bytes}

/-- A node without children fits an empty rule.  -/
theorem partsFit_nil : PartsFit [] [] := ⟨rfl, fun i part data h => by simp at h⟩

/-- Parts and labels grow together: if the labels fit the parts up to here, and the next
label fits the next part, then all of them do.  -/
theorem PartsFit.concat {parts : List RulePart} {labels : List NodeData} {part : RulePart}
    {data : NodeData} (h : PartsFit parts labels) (hfits : part.Fits parts data) :
    PartsFit (parts ++ [part]) (labels ++ [data]) := by
  refine ⟨by rw [List.length_append, List.length_append, h.1]; rfl, fun i p d hp hd => ?_⟩
  rcases Nat.lt_trichotomy i parts.length with hlt | rfl | hgt
  · rw [List.getElem?_append_left hlt] at hp
    rw [List.getElem?_append_left (h.1 ▸ hlt)] at hd
    rw [List.take_append_of_le_length hlt.le]
    exact h.2 i p d hp hd
  · rw [List.getElem?_concat_length] at hp
    rw [h.1, List.getElem?_concat_length] at hd
    cases hp
    cases hd
    rw [List.take_left' rfl]
    exact hfits
  · rw [List.getElem?_eq_none (by rw [List.length_append, List.length_singleton]; omega)] at hp
    cases hp

/-- The part that `findId` finds comes before, and has the id.  The id 0 is that of parts
without one and is never looked for.  -/
theorem findId_spec {before : List RulePart} {id i : ℕ} (h : findId before id = some i) :
    id ≠ 0 ∧ ∃ value attributes, before[i]? = some (.symbol value id attributes) := by
  unfold findId at h
  split at h
  · cases h
  · rename_i hid
    obtain ⟨⟨part, j⟩, hlast, rfl⟩ := Option.map_eq_some_iff.1 h
    obtain ⟨hmem, hpart⟩ := List.mem_filter.1 (List.mem_of_getLast? hlast)
    have hget := List.mem_zipIdx_iff_getElem?.1 hmem
    refine ⟨hid, ?_⟩
    cases part with
    | string value => exact absurd (of_decide_eq_true hpart) (Ne.symm hid)
    | symbol value id' attributes =>
        cases of_decide_eq_true hpart
        exact ⟨value, attributes, hget⟩

/-- **A copy fits**: the label of the child that was made for a part with this id fits
every later part with it. -/
theorem PartsFit.copy {before : List RulePart} {labels : List NodeData} {id i : ℕ}
    (h : PartsFit before labels) (hfind : findId before id = some i) (name : Bytes)
    (attributes : Attributes) :
    ∃ data, labels[i]? = some data ∧ (RulePart.symbol name id attributes).Fits before data := by
  obtain ⟨hid, value, attributes', hget⟩ := findId_spec hfind
  have hlt : i < labels.length := h.1 ▸ (List.getElem?_eq_some_iff.1 hget).1
  refine ⟨labels[i], List.getElem?_eq_getElem hlt, Or.inr ⟨hid, ?_⟩⟩
  rcases h.2 i _ _ hget (List.getElem?_eq_getElem hlt) with hdata | ⟨-, value', attributes'', hmem, hdata⟩
  · exact ⟨value, attributes', List.mem_of_getElem? hget, hdata⟩
  · exact ⟨value', attributes'', List.mem_of_mem_take hmem, hdata⟩

/-! ### What `GenerateTree` gives -/

/-- What a computation that may give `NULL` is to give. -/
def OrNull {α : Type} (Q : α → Prop) (result : Option α) : Prop := ∀ a, result = some a → Q a

/-- `NULL` is always allowed.  -/
theorem orNull_none {α : Type} (Q : α → Prop) : OrNull Q none := fun a h => by cases h

/-- What is not `NULL` has to be right.  -/
theorem orNull_some {α : Type} {Q : α → Prop} {a : α} (h : Q a) : OrNull Q (some a) :=
  fun b hb => by cases hb; exact h

/-- The pointer to a symbol that is defined can be followed.  -/
theorem deref_eq {symbol : Symbol} (h : g.getSymbol name = some symbol) :
    g.deref (some name) = pure symbol := by
  rw [deref, Option.bind_some, h]

variable {generate : Bytes → Draws (Option TreeNode)} {before : List RulePart}
  {children : List TreeNode}

/-- A part gives a child that fits: a string part its string, a symbol part with the id of
an earlier one a copy of that child, and any other a new tree of its symbol.  -/
theorem generatePart_spec {part : RulePart}
    (hgenerate : ∀ value id attributes, part = .symbol value id attributes →
      Spec (generate value) (OrNull (g.ConformingOf value)) (· = .noDraws))
    (hfits : PartsFit before (children.map Foundation.Tree.label))
    (hchildren : ∀ c ∈ children, g.Conforming c) :
    Spec (generatePart generate before children part)
      (OrNull fun child => part.Fits before child.label ∧ g.Conforming child) (· = .noDraws) := by
  cases part with
  | string value =>
      refine Spec.pure (orNull_some ⟨rfl, .node trivial fun c hc => ?_⟩)
      exact absurd hc List.not_mem_nil
  | symbol value id attributes =>
      rw [generatePart]
      split
      · rename_i i hfind
        obtain ⟨data, hdata, hfit⟩ := hfits.copy hfind value attributes
        rw [List.getElem?_map] at hdata
        obtain ⟨child, hchild, rfl⟩ := Option.map_eq_some_iff.1 hdata
        rw [hchild]
        exact Spec.pure (orNull_some ⟨hfit, hchildren child (List.mem_of_getElem? hchild)⟩)
      · refine (hgenerate value id attributes rfl).mono fun result hresult child hchild => ?_
        obtain ⟨hlabel, hconf⟩ := hresult child hchild
        exact ⟨Or.inl hlabel, hconf⟩

/-- **The loop over the parts of a rule** gives children that follow the rule, or null if
one of the trees could not be generated.  The invariant is that the children up to here fit
the parts up to here.  -/
theorem generateParts_spec {parts : List RulePart}
    (hgenerate : ∀ value id attributes, .symbol value id attributes ∈ parts →
      Spec (generate value) (OrNull (g.ConformingOf value)) (· = .noDraws))
    (hfits : PartsFit before (children.map Foundation.Tree.label))
    (hchildren : ∀ c ∈ children, g.Conforming c) :
    Spec (generateParts generate before parts children)
      (OrNull fun cs => PartsFit (before ++ parts) (cs.map Foundation.Tree.label) ∧
        ∀ c ∈ cs, g.Conforming c) (· = .noDraws) := by
  induction parts generalizing before children with
  | nil =>
      rw [List.append_nil]
      exact Spec.pure (orNull_some ⟨hfits, hchildren⟩)
  | cons part parts ih =>
      rw [generateParts]
      refine (generatePart_spec (fun value id attributes hpart => ?_) hfits hchildren).bind
        fun result hresult => ?_
      · exact hgenerate value id attributes (hpart ▸ List.mem_cons_self)
      cases result with
      | none => exact Spec.pure (orNull_none _)
      | some child =>
          obtain ⟨hfit, hconf⟩ := hresult child rfl
          have hnext := @ih (before ++ [part]) (children ++ [child])
            (fun value id attributes hmem => hgenerate value id attributes (List.mem_cons_of_mem _ hmem))
            (by rw [List.map_append]; exact hfits.concat hfit)
            (fun c hc => by
              rcases List.mem_append.1 hc with hc | hc
              · exact hchildren c hc
              · cases List.mem_singleton.1 hc
                exact hconf)
          rwa [List.append_assoc] at hnext

/-- The loop over the children of a repeat symbol gives trees of the symbol, as many as the
draws say; if one of them could not be generated, the whole node could not.  -/
theorem repeatLoop_spec {generate : Option Bytes → Draws (Option TreeNode)} {Q : TreeNode → Prop}
    {E : Stop → Prop} {pointer : Option Bytes} (hE : E .noDraws)
    (hgenerate : Spec (generate pointer) (OrNull Q) E) :
    Spec (loop .noDraws (repeatBody generate pointer) []) (OrNull fun cs => ∀ c ∈ cs, Q c) E := by
  refine Spec.loop (fun cs => ∀ c ∈ cs, Q c) hE (fun cs hcs => ?_)
    fun c hc => absurd hc List.not_mem_nil
  refine (spec_rand.mono_error fun e he => he ▸ hE).bind fun r _ => ?_
  split
  · exact Spec.pure (orNull_some hcs)
  · refine hgenerate.bind fun result hresult => ?_
    cases result with
    | none => exact Spec.pure (orNull_none _)
    | some child =>
        refine Spec.pure fun c hc => ?_
        rcases List.mem_append.1 hc with hc | hc
        · exact hcs c hc
        · cases List.mem_singleton.1 hc
          exact hresult child rfl

variable {symbol : Symbol}

/-- A rule that `Rand` picks is there. -/
theorem generators_pos (h : g.Sound) (hmem : symbol ∈ g.symbols) (hrepeat : ¬ symbol.isRepeat = true) :
    0 < symbol.generators.length :=
  List.length_pos_of_ne_nil (h.generators symbol hmem (Bool.not_eq_true _ ▸ hrepeat))

/-- **The children of a node follow the grammar** if the trees below are conforming: those
of a repeat symbol are trees of the symbol it repeats, and those of any other follow the
rule that was drawn.  -/
theorem generateChildren_spec {generate : Option Bytes → Draws (Option TreeNode)} (h : g.Sound)
    (hsymbol : g.getSymbol name = some symbol)
    (hgenerate : ∀ other, g.Defined other →
      Spec (generate (some other)) (OrNull (g.ConformingOf other)) (· = .noDraws)) :
    Spec (generateChildren generate symbol)
      (OrNull fun cs => g.Licensed (.symbol name) (cs.map Foundation.Tree.label) ∧
        ∀ c ∈ cs, g.Conforming c) (· = .noDraws) := by
  obtain ⟨hmem, -⟩ := getSymbol_mem hsymbol
  rw [generateChildren]
  split
  · rename_i hrepeat
    obtain ⟨r, hr, hd⟩ := h.repeatSymbol symbol hmem hrepeat
    rw [hr]
    have hloop := repeatLoop_spec (E := (· = .noDraws)) rfl (hgenerate r hd)
    refine hloop.mono fun result hresult cs hcs => ?_
    have hall := hresult cs hcs
    refine ⟨⟨symbol, hsymbol, ?_⟩, fun c hc => (hall c hc).2⟩
    rw [if_pos hrepeat]
    refine ⟨r, hr, fun data hdata => ?_⟩
    obtain ⟨c, hc, rfl⟩ := List.mem_map.1 hdata
    exact (hall c hc).1
  · rename_i hrepeat
    refine (spec_randMod (generators_pos h hmem hrepeat)).bind fun k hk => ?_
    rw [List.getElem?_eq_getElem hk]
    have hrule : symbol.generators[k] ∈ symbol.generators := List.getElem_mem hk
    have hparts := h.parts symbol hmem _ hrule
    refine (generateParts_spec (fun value id attributes hpart =>
      hgenerate value (hparts value id attributes hpart)) partsFit_nil
        fun c hc => absurd hc List.not_mem_nil).mono fun result hresult cs hcs => ?_
    obtain ⟨hfit, hconf⟩ := hresult cs hcs
    refine ⟨⟨symbol, hsymbol, ?_⟩, hconf⟩
    rw [if_neg hrepeat]
    exact ⟨_, hrule, hfit⟩

/-- **What is generated is conforming.** It is `NULL`, or a tree of the symbol; nothing
undefined is done, as a symbol that is not a repeat symbol has a rule, and a repeat symbol
has its own symbol.  -/
theorem generateLevels_spec (h : g.Sound) (levels : ℕ) (hname : g.Defined name) :
    Spec (g.generateLevels levels (some name)) (OrNull (g.ConformingOf name)) (· = .noDraws) := by
  induction levels generalizing name with
  | zero => exact Spec.pure (orNull_none _)
  | succ levels ih =>
      obtain ⟨symbol, hsymbol⟩ := hname.getSymbol
      rw [generateLevels, deref_eq hsymbol, pure_bind, (getSymbol_mem hsymbol).2]
      refine (generateChildren_spec h hsymbol fun other hd => ih hd).bind fun result hresult =>
        Spec.pure ?_
      intro tree htree
      obtain ⟨cs, hcs, rfl⟩ := Option.map_eq_some_iff.1 htree
      obtain ⟨hlicensed, hconf⟩ := hresult cs hcs
      exact ⟨rfl, .node hlicensed hconf⟩

/-- **`GenerateTree` gives `NULL` or a conforming tree** of the symbol, and does nothing
undefined: it only ever stops because it is out of draws. -/
theorem generateTree_spec (h : g.Sound) (depth : ℕ) (hname : g.Defined name) :
    Spec (g.generateTree (some name) depth) (OrNull (g.ConformingOf name)) (· = .noDraws) :=
  generateLevels_spec h _ hname

/-- The same by name; a name that is not defined gives `NULL`, and nothing is drawn for it.
-/
theorem generateTreeNamed_spec (h : g.Sound) (name : Bytes) :
    Spec (g.generateTreeNamed name) (OrNull (g.ConformingOf name)) (· = .noDraws) := by
  rw [generateTreeNamed]
  split
  · exact Spec.pure (orNull_none _)
  · rename_i symbol hsymbol
    rw [(getSymbol_mem hsymbol).2]
    exact generateTree_spec h 0 (defined_of_getSymbol hsymbol)

/-! ### `GenerateTree` returns -/

/-- Following a pointer draws nothing.  -/
theorem shrinks_deref (g : Grammar) (pointer : Option Bytes) : Shrinks (g.deref pointer) := by
  rw [deref]
  split
  · exact shrinks_pure _
  · exact shrinks_fail _

/-- Generating the parts of a rule draws numbers and puts none back: what is left of the
draws is a tail of what there was.  -/
theorem shrinks_generateParts (hgenerate : ∀ value, Shrinks (generate value))
    {parts : List RulePart} : Shrinks (generateParts generate before parts children) := by
  induction parts generalizing before children with
  | nil => exact shrinks_pure _
  | cons part parts ih =>
      rw [generateParts]
      refine Shrinks.bind ?_ fun result => ?_
      · cases part with
        | string value => exact shrinks_pure _
        | symbol value id attributes =>
            rw [generatePart]
            split
            · split
              · exact shrinks_pure _
              · exact shrinks_fail _
            · exact hgenerate value
      · cases result with
        | none => exact shrinks_pure _
        | some child => exact ih

/-- A round of the loop uses a draw, the one that says whether to go on, and what the new
child needs besides.  -/
theorem consumes_repeatBody {generate : Option Bytes → Draws (Option TreeNode)}
    {pointer : Option Bytes} (hgenerate : Shrinks (generate pointer)) (children : List TreeNode) :
    Consumes (repeatBody generate pointer children) := by
  refine consumes_rand.bind fun r => ?_
  split
  · exact shrinks_pure _
  · refine hgenerate.bind fun result => ?_
    cases result with
    | none => exact shrinks_pure _
    | some child => exact shrinks_pure _

/-- So does generating a tree, by the levels: the children are generated from what the draws
of the node have left.  -/
theorem shrinks_generateLevels (g : Grammar) (levels : ℕ) (pointer : Option Bytes) :
    Shrinks (g.generateLevels levels pointer) := by
  induction levels generalizing pointer with
  | zero => exact shrinks_pure _
  | succ levels ih =>
      rw [generateLevels]
      refine (shrinks_deref g pointer).bind fun symbol => Shrinks.bind ?_ fun _ => shrinks_pure _
      rw [generateChildren]
      split
      · exact shrinks_loop _ (fun cs => (consumes_repeatBody (ih _) cs).shrinks) _
      · refine (shrinks_randMod _).bind fun k => ?_
        split
        · exact shrinks_generateParts fun value => ih _
        · exact shrinks_fail _

/-- The loop over the children of a repeat symbol is left at the first draw over 0.75, and
if the draws end in such ones it meets one sooner or later.  -/
theorem finishes_repeatLoop {generate : Option Bytes → Draws (Option TreeNode)}
    {pointer : Option Bytes} (hshrinks : Shrinks (generate pointer))
    (hgenerate : Finishes lastDraw (generate pointer)) :
    Finishes lastDraw (loop .noDraws (repeatBody generate pointer) []) := by
  refine Finishes.loop _ (Advances.of_consumes (consumes_repeatBody hshrinks)) (fun cs => ?_)
    (fun cs => ⟨1, some cs, fun k => ?_⟩) _
  · refine finishes_rand.bind fun r => ?_
    split
    · exact Finishes.pure _ _
    · refine hgenerate.bind fun result => ?_
      cases result with
      | none => exact Finishes.pure _ _
      | some child => exact Finishes.pure _ _
  · rw [Nat.add_comm]
    rfl

/-- If each symbol part can be finished with the last draw again and again, so can all of
them, one after the other; strings and copies need none.  -/
theorem finishes_generateParts {parts : List RulePart}
    (hgenerate : ∀ value id attributes, .symbol value id attributes ∈ parts →
      Finishes lastDraw (generate value)) (hlength : before.length = children.length) :
    Finishes lastDraw (generateParts generate before parts children) := by
  induction parts generalizing before children with
  | nil => exact Finishes.pure _ _
  | cons part parts ih =>
      rw [generateParts]
      refine Finishes.bind ?_ fun result => ?_
      · cases part with
        | string value => exact Finishes.pure _ _
        | symbol value id attributes =>
            rw [generatePart]
            split
            · rename_i i hfind
              obtain ⟨-, _, _, hget⟩ := findId_spec hfind
              have hlt := (List.getElem?_eq_some_iff.1 hget).1
              rw [List.getElem?_eq_getElem (hlength ▸ hlt)]
              exact Finishes.pure _ _
            · exact hgenerate value id attributes List.mem_cons_self
      · cases result with
        | none => exact Finishes.pure _ _
        | some child =>
            refine ih (fun value id attributes hmem =>
              hgenerate value id attributes (List.mem_cons_of_mem _ hmem)) ?_
            rw [List.length_append, List.length_append, hlength]
            rfl

/-- **`GenerateTree` returns**, however the draws begin, if they end in ones over 0.75: a
repeat loop is left at such a draw, and everything else that it does is bounded by the
levels.  -/
theorem finishes_generateLevels (h : g.Sound) (levels : ℕ) (hname : g.Defined name) :
    Finishes lastDraw (g.generateLevels levels (some name)) := by
  induction levels generalizing name with
  | zero => exact Finishes.pure _ _
  | succ levels ih =>
      obtain ⟨symbol, hsymbol⟩ := hname.getSymbol
      obtain ⟨hmem, -⟩ := getSymbol_mem hsymbol
      rw [generateLevels, deref_eq hsymbol, pure_bind]
      refine Finishes.bind ?_ fun _ => Finishes.pure _ _
      rw [generateChildren]
      split
      · rename_i hrepeat
        obtain ⟨r, hr, hd⟩ := h.repeatSymbol symbol hmem hrepeat
        rw [hr]
        exact finishes_repeatLoop (shrinks_generateLevels g levels _) (ih hd)
      · rename_i hrepeat
        have hpos := generators_pos h hmem hrepeat
        refine (finishes_randMod hpos).bind_of (spec_randMod hpos) fun k hk => ?_
        rw [List.getElem?_eq_getElem hk]
        have hparts := h.parts symbol hmem _ (List.getElem_mem hk)
        exact finishes_generateParts
          (fun value id attributes hpart => ih (hparts value id attributes hpart)) rfl

end Grammar
end Jackalope
