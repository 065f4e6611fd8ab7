/-
# Everything stays inside the grammar

For a grammar that `Read` accepts, generating, mutating and minimizing only ever make
conforming trees.  Generation and mutation were shown to in their modules; here is the
minimizer, and all three together (`conformity`).

A step of the minimizer leaves a repeat node with fewer children, or leaves a node
without any whose symbol has an empty rule; either is conforming, and undoing it gives
back the tree before.
-/

import Jackalope.Grammar.Minimizer

namespace Jackalope
namespace Grammar

open Foundation Foundation.Consumer

variable {g : Grammar} {root name : Bytes} {ctx ctx' : MinimizerContext} {tree : TreeNode}
  {path : List ℕ} {children kept : List TreeNode} {k pos : ℕ}

/-- The empty rule licenses a node without children, and a symbol that can be empty has such
a rule.  -/
theorem conforming_empty (hg : g.Sound) {symbol : Symbol} (hsymbol : g.getSymbol name = some symbol)
    (hrepeat : symbol.isRepeat = false) (hempty : symbol.canBeEmpty = true) :
    g.ConformingOf name (.node (.symbol name) []) := by
  obtain ⟨rule, hrule, hparts⟩ := hg.canBeEmpty symbol (getSymbol_mem hsymbol).1 hempty
  refine ⟨rfl, .node ⟨symbol, hsymbol, ?_⟩ fun c hc => absurd hc List.not_mem_nil⟩
  rw [hrepeat, if_neg Bool.false_ne_true]
  refine ⟨rule, hrule, ?_⟩
  rw [hparts]
  exact partsFit_nil

/-- **What is left after a step of the minimizer** is conforming: a repeat node with one
child less, or a node without children whose symbol can be empty.  -/
theorem Removal.conforming (hr : Removal g ctx ctx' k pos path name children kept) (hg : g.Sound)
    (h : g.ConformingOf root ctx.tree) : g.ConformingOf root ctx'.tree := by
  have hnode : g.ConformingOf name (.node (.symbol name) children) :=
    ⟨rfl, h.2.get? hr.candidate.node⟩
  rw [hr.tree]
  refine h.update hr.candidate.node ?_
  obtain ⟨symbol, hsymbol, ⟨hrepeat, hkept⟩ | ⟨hrepeat, hempty, rfl⟩⟩ := hr.kind
  · obtain ⟨r, hrepeats, -⟩ := hg.repeatSymbol symbol (getSymbol_mem hsymbol).1 hrepeat
    refine (conforming_repeat_iff hsymbol hrepeat hrepeats _).2 fun c hc => ?_
    exact (conforming_repeat_iff hsymbol hrepeat hrepeats _).1 hnode c (hkept hc)
  · exact conforming_empty hg hsymbol hrepeat hempty

/-- **The minimizer keeps the tree conforming**: after every report, and in every sample
that it presents.  It removes a child of a repeat node, which may have any number of them,
or all children of a node whose symbol has an empty rule.  -/
theorem conforming_of_rounds {minimizationLimit : UInt64} {answers : List Bool} (hg : g.Sound)
    (h : g.ConformingOf root tree)
    (hrun : Run (g.MinimizerRound minimizationLimit) (g.createContext tree) answers ctx) :
    g.ConformingOf root ctx.tree ∧ ∃ ctx' more,
      g.minimizeStep minimizationLimit ctx = .ok (ctx', more) ∧ g.ConformingOf root ctx'.tree := by
  have hinv : ctx.Valid g ∧ g.ConformingOf root ctx.tree := by
    refine hrun.invariant (fun _ ctx => ctx.Valid g ∧ g.ConformingOf root ctx.tree)
      ⟨valid_createContext g tree, h⟩ ?_
    rintro _ ctx accepted ctx' ⟨hvalid, hconf⟩ hround
    obtain ⟨presented, current, k, pos, path, name, children, kept, -, hr, -, -, hvalid', rfl⟩ :=
      round_cases hvalid hround
    refine ⟨hvalid', ?_⟩
    cases accepted with
    | true => exact hr.conforming hg hconf
    | false => exact hconf
  obtain ⟨hvalid, hconf⟩ := hinv
  refine ⟨hconf, ?_⟩
  rcases minimizeStep_cases minimizationLimit hvalid with ⟨ctx', hstep, htree, -⟩ | ⟨ctx', _, _, _,
    _, _, _, _, hstep, -, hr, -⟩
  · exact ⟨ctx', false, hstep, by rw [htree]; exact hconf⟩
  · exact ⟨ctx', true, hstep, hr.conforming hg hconf⟩

/-- **Conformity is preserved everywhere.**  For a grammar that `Read` accepts:
`GenerateTree` gives `NULL` or a conforming tree of the symbol, does nothing undefined
(no rule of an empty list, no repeat symbol that is not set), and returns however the
draws begin; if the current tree and the interesting trees are conforming trees of
`root`, then so are the tree after any sequence of mutators, what `Mutate` encodes, and
the tree after any answers to the minimizer and whatever it presents then. -/
theorem conformity {F : Type} [DoubleArith F] (file : Option Bytes) (g : Grammar) (hread : read file = some g) :
    (∀ name, g.Defined name → ∀ depth,
      Spec (g.generateTree (some name) depth) (OrNull (g.ConformingOf name)) (· = .noDraws) ∧
        Finishes lastDraw (g.generateTree (some name) depth)) ∧
    (∀ (mutationFalloff : F) tree calls newTree, g.ConformingOf (str "root") tree →
      (∀ call ∈ calls, ∀ t ∈ call.interestingTrees, g.ConformingOf (str "root") t) →
      Run (g.MutationStep mutationFalloff) tree calls newTree →
      g.ConformingOf (str "root") newTree) ∧
    (∀ (mutationFalloff : F) interestingTrees tree, g.ConformingOf (str "root") tree →
      (∀ i, ∀ t ∈ interestingTrees i, g.ConformingOf (str "root") t) →
      Spec (g.mutateTree mutationFalloff interestingTrees tree) (g.ConformingOf (str "root"))
        (· ≠ .undefined)) ∧
    ∀ minimizationLimit tree answers ctx, g.ConformingOf (str "root") tree →
      Run (g.MinimizerRound minimizationLimit) (g.createContext tree) answers ctx →
      g.ConformingOf (str "root") ctx.tree ∧ ∃ ctx' more,
        g.minimizeStep minimizationLimit ctx = .ok (ctx', more) ∧
          g.ConformingOf (str "root") ctx'.tree := by
  have hg : g.Sound := read_sound hread
  refine ⟨fun name hname depth => ⟨generateTree_spec hg depth hname, ?_⟩, ?_, ?_, ?_⟩
  · exact finishes_generateLevels hg _ hname
  · exact fun _ _ _ _ h hothers hrun => conforming_of_run hg h hothers hrun
  · exact fun _ _ _ h hothers => mutateTree_spec hg hothers h
  · exact fun _ _ _ _ h hrun => conforming_of_rounds hg h hrun

/-- The grammar with the two lines `<root> = a<repeat_root>` and `<root> =`. -/
def sampleGrammar : Grammar :=
  ⟨[⟨str "repeat_root", true, some (str "root"), false, []⟩,
    ⟨str "root", false, none, true,
      [⟨str "root", [.string (str "a"), .symbol (str "repeat_root") 0 []]⟩, ⟨str "root", []⟩]⟩]⟩

/-- Its first rule, with one tree for the repeat symbol that follows the second. -/
def sampleDerivation : TreeNode :=
  .node (.symbol (str "root"))
    [.node (.string (str "a")) [],
      .node (.symbol (str "repeat_root")) [.node (.symbol (str "root")) []]]

/-- The context after the only step of the minimizer was accepted. -/
def sampleMinimized : MinimizerContext where
  tree := .node (.symbol (str "root"))
    [.node (.string (str "a")) [], .node (.symbol (str "repeat_root")) []]
  minimizationCandidates := [[], [1]]
  removedChildren := []
  currentCandidate := some 1
  currentCandidatePos := 0
  numModesInitial := 4
  numModesRemoved := 1

/-- Another tree is spliced in for the deepest root, and then the repeat node of the root
gets another child, which is empty. -/
def sampleCalls : List MutationCall :=
  [⟨.splice, [sampleMinimized.tree], [lastDraw, 0, 0]⟩,
    ⟨.repeatMutator, [], [0, 0, 2000000000, 1, lastDraw]⟩]

/-- The node at the end of a path has this symbol. -/
def symbolAt (tree : TreeNode) (path : List ℕ) (name : Bytes) : Bool :=
  (tree.get? path).any fun node => node.label = .symbol name

/-- **A grammar of two rules**, for which a tree is generated, mutated twice, made by
`Mutate`, and minimized.  The two mutators of the run splice and repeat, so the tree at its
end has nodes that the first tree had not.  -/
theorem conformity_sampleGrammar :
    sampleGrammar.ConformingOf (str "root") sampleDerivation ∧
      (∃ newTree, Run (sampleGrammar.MutationStep (1.1 : ℚ)) sampleDerivation sampleCalls newTree ∧
        symbolAt newTree [1, 0, 1] (str "repeat_root") = true ∧
        symbolAt newTree [1, 1] (str "root") = true ∧
        sampleGrammar.ConformingOf (str "root") newTree) ∧
      (∃ draws newTree rest, sampleGrammar.mutateTree (1.1 : ℚ) (fun _ => []) sampleDerivation draws =
        .ok (newTree, rest) ∧ sampleGrammar.ConformingOf (str "root") newTree) ∧
      Run (sampleGrammar.MinimizerRound 0) (sampleGrammar.createContext sampleDerivation) [true]
        sampleMinimized ∧
      sampleGrammar.ConformingOf (str "root") sampleMinimized.tree := by
  obtain ⟨hgenerate, hmutations, hmutate, hminimize⟩ :=
    conformity (F := ℚ) (some (str "<root> = a<repeat_root>\n<root> =")) sampleGrammar
      (by decide +kernel)
  have hdefined : sampleGrammar.Defined (str "root") :=
    ⟨_, List.mem_cons_of_mem _ List.mem_cons_self, rfl⟩
  have hrun : sampleGrammar.generateTree (some (str "root")) 0 [0, 0, 1, lastDraw] =
      .ok (some sampleDerivation, []) := rfl
  have htree : sampleGrammar.ConformingOf (str "root") sampleDerivation :=
    (hgenerate (str "root") hdefined 0).1.of_ok hrun sampleDerivation rfl
  have hround : sampleGrammar.MinimizerRound 0 (sampleGrammar.createContext sampleDerivation) true
      sampleMinimized := ⟨_, rfl, rfl⟩
  have hminimized := (hminimize 0 sampleDerivation [true] sampleMinimized htree (Run.single hround)).1
  obtain ⟨newTree, hcalls, hshape⟩ := sampleGrammar.exists_mutationRun (1.1 : ℚ)
    (fun tree => symbolAt tree [1, 0, 1] (str "repeat_root") && symbolAt tree [1, 1] (str "root"))
    sampleCalls sampleDerivation (by decide +kernel)
  obtain ⟨hrepeat, hroot⟩ := Bool.and_eq_true_iff.1 hshape
  have hothers : ∀ call ∈ sampleCalls, ∀ t ∈ call.interestingTrees,
      sampleGrammar.ConformingOf (str "root") t := by
    intro call hcall t ht
    rcases List.mem_cons.1 hcall with rfl | hcall
    · exact List.mem_singleton.1 ht ▸ hminimized
    · cases List.mem_singleton.1 hcall
      exact absurd ht List.not_mem_nil
  have hnew : sampleGrammar.mutateTree (1.1 : ℚ) (fun _ => []) sampleDerivation
      [0, 0, 0, 1, lastDraw] = .ok (sampleDerivation, []) := rfl
  exact ⟨htree,
    ⟨newTree, hcalls, hrepeat, hroot, hmutations 1.1 sampleDerivation _ newTree htree hothers hcalls⟩,
    ⟨_, _, _, hnew, (hmutate 1.1 (fun _ => []) sampleDerivation htree
      fun _ _ ht => absurd ht List.not_mem_nil).of_ok hnew⟩,
    Run.single hround, hminimized⟩

end Grammar
end Jackalope
