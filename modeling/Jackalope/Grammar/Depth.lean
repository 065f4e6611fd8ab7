/-
# The depth limit

`GenerateTree` gives up below `MAX_DEPTH`, and the mutators hand it the depth at which
the new subtree will be, so neither `ReplaceNode` nor `RepeatMutator` makes a tree deeper
than that.  `Splice` and `RepeatSplice` hand the depth to the search in the other tree
instead, as the depth that a node found there may have at most.  What the limit needs is
a node that is at least as deep: the subtree of a node closer to the root may be higher
than what fits.

`SpliceFits` says that it does fit, whichever nodes the draws select.  It is what a
splice needs to keep the limit, and no more (`callFits_iff`), and as long as it holds at
each splice of a run the limit does (`depthLimited_runs`).
-/

import Jackalope.Grammar.Mutator

namespace Jackalope
namespace Grammar

open Foundation Foundation.Consumer

/-- `type == SYMBOLTYPE`. -/
def NodeData.IsSymbol : NodeData → Prop
  | .string _ => False
  | .symbol _ => True

/-- With its root at `depth`, the tree has no symbol node below `MAX_DEPTH`. -/
abbrev FitsAt (depth : ℕ) (tree : TreeNode) : Prop :=
  Foundation.Tree.DepthAtMost NodeData.IsSymbol maxDepth depth tree

/-- No symbol node is deeper than `MAX_DEPTH`. -/
def DepthLimited (tree : TreeNode) : Prop := FitsAt 0 tree

variable {F : Type} [DoubleArith F] {g : Grammar} {mutationFalloff : F} {tree : TreeNode}
  {interestingTrees : List TreeNode} {name : Bytes} {children : List TreeNode} {depth : ℕ}

/-! ### What is generated -/

/-- A symbol node fits at a depth if it is within the limit and its children fit one level
deeper.  -/
theorem fitsAt_symbolNode :
    FitsAt depth (.node (.symbol name) children) ↔
      depth ≤ maxDepth ∧ ∀ c ∈ children, FitsAt (depth + 1) c := by
  rw [FitsAt, Foundation.Tree.depthAtMost_node]
  exact and_congr_left' ⟨fun h => h trivial, fun h _ => h⟩

/-- A string fits at every depth: the limit is on symbols.  -/
theorem fitsAt_stringNode (depth : ℕ) (value : Bytes) : FitsAt depth (generateStringNode value) :=
  Foundation.Tree.depthAtMost_node.2 ⟨fun h => h.elim, fun _ hc => absurd hc List.not_mem_nil⟩

/-- The loop over the parts of a rule: strings, copies of earlier children, new trees.  All
three stay within the depth at which the children stand, the new trees since they were
generated for it.  -/
theorem generateParts_fits {generate : Bytes → Draws (Option TreeNode)} {before parts : List RulePart}
    (hgenerate : ∀ value, Spec (generate value) (OrNull (FitsAt depth)) (fun _ => True))
    (hchildren : ∀ c ∈ children, FitsAt depth c) :
    Spec (generateParts generate before parts children) (OrNull fun cs => ∀ c ∈ cs, FitsAt depth c)
      (fun _ => True) := by
  induction parts generalizing before children with
  | nil => exact Spec.pure (orNull_some hchildren)
  | cons part parts ih =>
      have hpart : Spec (generatePart generate before children part) (OrNull (FitsAt depth))
          (fun _ => True) := by
        cases part with
        | string value => exact Spec.pure (orNull_some (fitsAt_stringNode depth value))
        | symbol value id attributes =>
            rw [generatePart]
            split
            · split
              · rename_i child hchild
                exact Spec.pure (orNull_some (hchildren child (List.mem_of_getElem? hchild)))
              · exact Spec.fail trivial
            · exact hgenerate value
      rw [generateParts]
      refine hpart.bind fun result hresult => ?_
      cases result with
      | none => exact Spec.pure (orNull_none _)
      | some child =>
          refine ih fun c hc => ?_
          rcases List.mem_append.1 hc with hc | hc
          · exact hchildren c hc
          · cases List.mem_singleton.1 hc
            exact hresult child rfl

/-- **What is generated fits where it is put**, if there are no more levels left than the
limit has below that depth.  -/
theorem generateLevels_fits (levels depth : ℕ) (pointer : Option Bytes)
    (h : levels ≤ maxDepth + 1 - depth) :
    Spec (g.generateLevels levels pointer) (OrNull (FitsAt depth)) (fun _ => True) := by
  induction levels generalizing depth pointer with
  | zero => exact Spec.pure (orNull_none _)
  | succ levels ih =>
      have hbelow := fun pointer => ih (depth + 1) pointer (by omega)
      have hchildren (symbol : Symbol) : Spec (generateChildren (g.generateLevels levels) symbol)
          (OrNull fun cs => ∀ c ∈ cs, FitsAt (depth + 1) c) (fun _ => True) := by
        rw [generateChildren]
        split
        · exact repeatLoop_spec trivial (hbelow _)
        · refine (Spec.any _).bind fun k _ => ?_
          split
          · exact generateParts_fits (fun value => hbelow _) fun c hc => absurd hc List.not_mem_nil
          · exact Spec.fail trivial
      rw [generateLevels]
      refine (Spec.any _).bind fun symbol _ => (hchildren symbol).bind fun result hresult => ?_
      refine Spec.pure fun t ht => ?_
      obtain ⟨cs, hcs, rfl⟩ := Option.map_eq_some_iff.1 ht
      exact fitsAt_symbolNode.2 ⟨by omega, hresult cs hcs⟩

/-- **`GenerateTree` keeps the limit** at the depth it is given. -/
theorem generateTree_fits (pointer : Option Bytes) (depth : ℕ) :
    Spec (g.generateTree pointer depth) (OrNull (FitsAt depth)) (fun _ => True) :=
  generateLevels_fits _ depth pointer le_rfl

/-! ### What may be selected -/

variable {filter : Option Bytes} {maxdepth : ℕ} {justRepeat : Bool} {candidate : MutationCandidate F}

/-- The depth of a candidate is the length of the path to it. -/
theorem MaySelect.depth_eq
    (h : g.MaySelect mutationFalloff tree filter maxdepth justRepeat candidate) :
    candidate.depth = candidate.node.length := by
  obtain ⟨⟨node, depth⟩, hmem, rfl⟩ := List.mem_map.1 h.mem
  exact (Foundation.Tree.depth_of_mem_list hmem).trans (Nat.zero_add _)

/-- A subtree is replaced within the limit exactly when the new one fits. -/
theorem MaySelect.depthLimited_update_iff {f : TreeNode → TreeNode} {u : TreeNode}
    (h : g.MaySelect mutationFalloff tree filter maxdepth justRepeat candidate)
    (htree : DepthLimited tree) (hget : tree.get? candidate.node = some u) :
    DepthLimited (Foundation.Tree.update f candidate.node tree) ↔ FitsAt candidate.depth (f u) := by
  have hiff := Foundation.Tree.DepthAtMost.update_iff (f := f) htree hget
  rwa [Nat.zero_add, ← h.depth_eq] at hiff

/-- A selected subtree is within the limit at its own depth. -/
theorem MaySelect.fitsAt {u : TreeNode}
    (h : g.MaySelect mutationFalloff tree filter maxdepth justRepeat candidate)
    (htree : DepthLimited tree) (hget : tree.get? candidate.node = some u) :
    FitsAt candidate.depth u := by
  have hbelow := Foundation.Tree.DepthAtMost.get? htree hget
  rwa [Nat.zero_add, ← h.depth_eq] at hbelow

/-! ### Generating mutators -/

/-- `ReplaceNode` generates the replacement for the depth of the node that it replaces, so
the limit is kept: the new tree is no deeper than what is left of the limit there.  -/
theorem replaceNode_depthLimited (h : DepthLimited tree) :
    Spec (g.replaceNode (g.getMutationCandidates mutationFalloff tree filter maxdepth false) tree)
      (fun result => DepthLimited result.1) (fun _ => True) := by
  refine ((isLocal_getNodeToMutate _).spec (Spec.any _)).bind fun selected hselected => ?_
  cases selected with
  | none => exact Spec.fail trivial
  | some candidate =>
      have hselect : g.MaySelect mutationFalloff tree filter maxdepth false candidate := hselected
      obtain ⟨name, children, hget, -⟩ := mem_getMutationCandidates hselect.mem
      dsimp only
      rw [symbolNodeAt_eq hget, pure_bind]
      refine (generateTree_fits _ candidate.depth).bind fun result hresult => ?_
      cases result with
      | none => exact Spec.pure h
      | some replacement =>
          exact Spec.pure ((hselect.depthLimited_update_iff h hget).2 (hresult replacement rfl))

/-- `RepeatMutator` generates the new children for the depth below the repeat node, so the
limit is kept; the children that it deletes make no tree deeper.  -/
theorem repeatMutator_depthLimited (h : DepthLimited tree) :
    Spec (g.repeatMutator (g.getMutationCandidates mutationFalloff tree filter maxdepth true) tree)
      (fun result => DepthLimited result.1) (fun _ => True) := by
  refine ((isLocal_getNodeToMutate _).spec (Spec.any _)).bind fun selected hselected => ?_
  cases selected with
  | none => exact Spec.pure h
  | some candidate =>
      have hselect : g.MaySelect mutationFalloff tree filter maxdepth true candidate := hselected
      obtain ⟨name, children, hget, -⟩ := mem_getMutationCandidates hselect.mem
      obtain ⟨hdepth, hchildren⟩ := fitsAt_symbolNode.1 (hselect.fitsAt h hget)
      dsimp only
      rw [symbolNodeAt_eq hget, pure_bind]
      refine (Spec.any _).bind fun position _ => (Spec.any _).bind fun draw _ => ?_
      refine (Spec.any _).bind fun symbol _ => ?_
      have hgenerate := generateTree_fits (g := g) symbol.repeatSymbol (candidate.depth + 1)
      refine (generateNewChildren_spec _ trivial hgenerate).bind fun newChildren hnew => ?_
      split
      · exact Spec.pure h
      · have hdelete := (deleteChildren_spec (below40 draw) position hchildren).mono_error
          (F := fun _ => True) fun _ _ => trivial
        refine hdelete.bind fun rest hrest => Spec.pure ?_
        refine (hselect.depthLimited_update_iff h hget).2 (fitsAt_symbolNode.2 ⟨hdepth, ?_⟩)
        split
        · exact mem_insertChildren hnew hrest
        · exact hrest

/-! ### Splices -/

/-- Where `Splice`, or `RepeatSplice` for `justRepeat`, may select a node of an interesting
tree that is closer to the root than the node to change, its subtree fits at that node. -/
def SpliceFits (g : Grammar) (mutationFalloff : F) (tree : TreeNode) (interestingTrees : List TreeNode)
    (justRepeat : Bool) : Prop :=
  ∀ candidate name children other otherCandidate copy,
    g.SpliceSelection mutationFalloff tree interestingTrees justRepeat candidate name children other
      otherCandidate →
    otherCandidate.depth < candidate.depth →
    other.get? otherCandidate.node = some copy → FitsAt candidate.depth copy

variable {other copy : TreeNode} {otherCandidate : MutationCandidate F}

/-- A node that is not closer to the root fits anyway: what is below it in its own tree,
which keeps the limit, is no deeper than what may be below the candidate.  -/
theorem SpliceFits.fitsAt (h : g.SpliceFits mutationFalloff tree interestingTrees justRepeat)
    (hothers : ∀ t ∈ interestingTrees, DepthLimited t)
    (hsel : g.SpliceSelection mutationFalloff tree interestingTrees justRepeat candidate name children
      other otherCandidate)
    (hcopy : other.get? otherCandidate.node = some copy) : FitsAt candidate.depth copy := by
  by_cases hcloser : otherCandidate.depth < candidate.depth
  · exact h candidate name children other otherCandidate copy hsel hcloser hcopy
  · obtain ⟨hmem, hle, -⟩ := hsel.otherNode
    have hfits := hsel.selectOther.fitsAt (hothers other hmem) hcopy
    rwa [Nat.le_antisymm hle (Nat.not_lt.1 hcloser)] at hfits

/-- Trees whose depths add up to no more than the limit fit, whatever is selected in them: a
simple condition that is enough.  -/
theorem spliceFits_of_shallow {limit : ℕ}
    (htree : Foundation.Tree.DepthAtMost NodeData.IsSymbol limit 0 tree)
    (hothers : ∀ t ∈ interestingTrees, FitsAt limit t) :
    g.SpliceFits mutationFalloff tree interestingTrees justRepeat := by
  intro candidate name children other otherCandidate copy hsel _ hcopy
  have hdepth := htree candidate.node _ hsel.node trivial
  rw [Nat.zero_add, ← hsel.select.depth_eq] at hdepth
  refine Foundation.Tree.DepthAtMost.mono ((hothers other hsel.otherNode.1).get? hcopy) ?_
  omega

/-- `Splice` keeps the limit if the subtree that it takes over fits where it is put.  The
candidates that it takes from the other tree are chosen by their own depth there.  -/
theorem splice_depthLimited (h : DepthLimited tree)
    (hothers : ∀ t ∈ interestingTrees, DepthLimited t)
    (hfits : g.SpliceFits mutationFalloff tree interestingTrees false) :
    Spec (g.splice mutationFalloff (g.getMutationCandidates mutationFalloff tree none maxDepth false)
      interestingTrees tree) (fun result => DepthLimited result.1) (fun _ => True) := by
  rw [splice_eq]
  refine selectSplice_spec (fun _ _ => trivial) h fun candidate name children other otherCandidate hsel => ?_
  obtain ⟨-, -, otherChildren, hget'⟩ := hsel.otherNode
  rw [spliceNode, hget']
  refine Spec.pure ((hsel.select.depthLimited_update_iff h hsel.node).2 ?_)
  exact hfits.fitsAt hothers hsel hget'

/-- `RepeatSplice` keeps the limit under the same condition, on the children that it copies:
they come from a node of another tree at any depth, and nothing in the mutator compares the
two depths.  -/
theorem repeatSplice_depthLimited (h : DepthLimited tree)
    (hothers : ∀ t ∈ interestingTrees, DepthLimited t)
    (hfits : g.SpliceFits mutationFalloff tree interestingTrees true) :
    Spec (g.repeatSplice mutationFalloff (g.getMutationCandidates mutationFalloff tree none maxDepth true)
      interestingTrees tree) (fun result => DepthLimited result.1) (fun _ => True) := by
  rw [repeatSplice_eq]
  refine selectSplice_spec (fun _ _ => trivial) h fun candidate name children other otherCandidate hsel => ?_
  obtain ⟨hdepth, hchildren⟩ := fitsAt_symbolNode.1 (hsel.select.fitsAt h hsel.node)
  obtain ⟨-, -, otherChildren, hget'⟩ := hsel.otherNode
  have hcopy := hfits.fitsAt hothers hsel hget'
  rw [spliceChildren, symbolNodeAt_eq hget', pure_bind]
  refine (Spec.any _).bind fun position _ => (Spec.any _).bind fun otherPosition _ => ?_
  refine (Spec.any _).bind fun draw _ => ?_
  have hdelete := (deleteChildren_spec (below40 draw) position hchildren).mono_error
    (F := fun _ => True) fun _ _ => trivial
  refine hdelete.bind fun rest hrest => ?_
  have hdrop : ∀ c ∈ otherChildren.drop otherPosition, FitsAt (candidate.depth + 1) c :=
    fun c hc => (fitsAt_symbolNode.1 hcopy).2 c (List.mem_of_mem_drop hc)
  have hcopies := (copyLoop_spec hdrop).mono_error (F := fun _ => True) fun _ _ => trivial
  refine hcopies.bind fun copies hcopies => Spec.pure ?_
  refine (hsel.select.depthLimited_update_iff h hsel.node).2 (fitsAt_symbolNode.2 ⟨hdepth, ?_⟩)
  exact mem_insertChildren hcopies hrest

/-! ### What a splice needs -/

/-- The first position may always be picked, also among no children.  -/
theorem mayReturn_mutatePosition (children : List TreeNode) : MayReturn (mutatePosition children) 0 := by
  rw [mutatePosition]
  split
  · exact MayReturn.pure 0
  · rename_i hempty
    rw [randMod, if_neg fun h => hempty (List.isEmpty_iff_length_eq_zero.2 h)]
    have hzero : (0 : UInt32).toNat % children.length = 0 := Nat.zero_mod _
    rw [← hzero]
    exact (mayReturn_rand 0).bind (MayReturn.pure _)

/-- The loop that copies children draws in each round, unless it has come to the last child,
so it ends with the draws or with the children.  -/
theorem advances_copyBody : Advances copyBody := by
  rintro ⟨copies, rest⟩ l s' l' h
  cases rest with
  | nil =>
      rw [copyBody, pure_apply] at h
      cases h
  | cons child rest =>
      rw [copyBody] at h
      obtain ⟨r, l₁, hrand, hround⟩ := bind_eq_ok h
      have hlt := consumes_rand l r l₁ hrand
      split at hround
      · cases hround
      · cases hround
        exact hlt

/-- All of the children may be copied: with draws that keep each child, the loop returns the
whole list, so nothing bounds what `RepeatSplice` may insert but the children that there
are.  -/
theorem mayReturn_copyLoop (copies rest : List TreeNode) :
    MayReturn (loop .noDraws copyBody (copies, rest)) (copies ++ rest) := by
  induction rest generalizing copies with
  | nil =>
      rw [loop_eq _ advances_copyBody, copyBody, List.append_nil]
      exact (MayReturn.pure _).bind (MayReturn.pure _)
  | cons child rest ih =>
      have hrest := ih (copies ++ [child])
      rw [List.append_assoc] at hrest
      have hround : MayReturn (copyBody (copies, child :: rest)) (.inl (copies ++ [child], rest)) := by
        rw [copyBody]
        exact (mayReturn_rand 0).bind (MayReturn.pure _)
      rw [loop_eq _ advances_copyBody]
      exact hround.bind hrest

/-- What is inserted is among the children then, wherever it is put.  -/
theorem mem_insertChildren_of_new {position : ℕ} {newChildren : List TreeNode} {c : TreeNode}
    (h : c ∈ newChildren) : c ∈ insertChildren position newChildren children :=
  List.mem_append_left _ (List.mem_append_right _ h)

/-- `Splice` may put any subtree that it may select at any node that it may select. -/
theorem mayReturn_splice
    (hsel : g.SpliceSelection mutationFalloff tree interestingTrees false candidate name children other
      otherCandidate)
    (hcopy : other.get? otherCandidate.node = some copy) :
    MayReturn (g.splice mutationFalloff (g.getMutationCandidates mutationFalloff tree none maxDepth false)
      interestingTrees tree) (Foundation.Tree.update (fun _ => copy) candidate.node tree, true) := by
  rw [splice_eq]
  refine hsel.mayReturn ?_
  rw [spliceNode, hcopy]
  exact MayReturn.pure _

/-- `RepeatSplice` may insert all children of any repeat node that it may select, behind the
first child of the candidate.  If one of them does not fit there, the limit is broken for
these draws.  -/
theorem mayReturn_repeatSplice {otherChildren : List TreeNode}
    (hsel : g.SpliceSelection mutationFalloff tree interestingTrees true candidate name children other
      otherCandidate)
    (hget' : other.get? otherCandidate.node = some (.node (.symbol name) otherChildren)) :
    MayReturn (g.repeatSplice mutationFalloff
        (g.getMutationCandidates mutationFalloff tree none maxDepth true) interestingTrees tree)
      (Foundation.Tree.update (setChildren (insertChildren 0 otherChildren children)) candidate.node tree,
        true) := by
  rw [repeatSplice_eq]
  refine hsel.mayReturn ?_
  rw [spliceChildren, symbolNodeAt_eq hget', pure_bind]
  refine (mayReturn_mutatePosition children).bind ((mayReturn_mutatePosition otherChildren).bind ?_)
  -- the last draw deletes nothing
  refine (mayReturn_rand lastDraw).bind ?_
  have hkeep : deleteChildren (below40 lastDraw) 0 children = pure children := by
    rw [deleteChildren, if_neg (by decide)]
  rw [hkeep, pure_bind, List.drop_zero]
  exact (mayReturn_copyLoop [] otherChildren).bind (MayReturn.pure _)

/-- What a mutator needs of the tree and the interesting trees. -/
def CallFits (g : Grammar) (mutationFalloff : F) (tree : TreeNode) (interestingTrees : List TreeNode) :
    Mutation → Prop
  | .replaceNode | .repeatMutator => True
  | .splice => g.SpliceFits mutationFalloff tree interestingTrees false
  | .repeatSplice => g.SpliceFits mutationFalloff tree interestingTrees true

/-- **Each mutator keeps the limit** under its own condition, which only the two splices
have.  -/
theorem applyMutation_depthLimited {mutation : Mutation} (h : DepthLimited tree)
    (hothers : ∀ t ∈ interestingTrees, DepthLimited t)
    (hfits : g.CallFits mutationFalloff tree interestingTrees mutation) :
    Spec (g.applyMutation mutationFalloff interestingTrees tree mutation)
      (fun result => DepthLimited result.1) (fun _ => True) := by
  cases mutation with
  | replaceNode => exact replaceNode_depthLimited h
  | splice => exact splice_depthLimited h hothers hfits
  | repeatMutator => exact repeatMutator_depthLimited h
  | repeatSplice => exact repeatSplice_depthLimited h hothers hfits

/-- **A mutator keeps the limit for all draws exactly when what it may insert fits.** For
the mutators that generate this is always so; for the two that splice it is a condition on
the trees they may take from and the places they may put it.  -/
theorem callFits_iff {mutation : Mutation} (h : DepthLimited tree)
    (hothers : ∀ t ∈ interestingTrees, DepthLimited t) :
    (∀ draws newTree,
        g.MutationStep mutationFalloff tree ⟨mutation, interestingTrees, draws⟩ newTree →
          DepthLimited newTree) ↔
      g.CallFits mutationFalloff tree interestingTrees mutation := by
  constructor
  · intro hkeeps
    have hreturn {newTree : TreeNode} (hmay : MayReturn
        (g.applyMutation mutationFalloff interestingTrees tree mutation) (newTree, true)) :
        DepthLimited newTree := by
      obtain ⟨used, hused⟩ := hmay
      exact hkeeps (used ++ []) newTree ⟨true, [], hused []⟩
    cases mutation with
    | replaceNode => exact trivial
    | repeatMutator => exact trivial
    | splice =>
        intro candidate name children other otherCandidate copy hsel _ hcopy
        have hnew := hreturn (mayReturn_splice hsel hcopy)
        exact (hsel.select.depthLimited_update_iff h hsel.node).1 hnew
    | repeatSplice =>
        intro candidate name children other otherCandidate copy hsel _ hcopy
        obtain ⟨-, -, otherChildren, hget'⟩ := hsel.otherNode
        cases hcopy.symm.trans hget'
        have hnew := hreturn (mayReturn_repeatSplice hsel hget')
        obtain ⟨hdepth, hchildren⟩ :=
          fitsAt_symbolNode.1 ((hsel.select.depthLimited_update_iff h hsel.node).1 hnew)
        exact fitsAt_symbolNode.2 ⟨hdepth, fun c hc => hchildren c (mem_insertChildren_of_new hc)⟩
  · rintro hfits draws newTree ⟨success, rest, hstep⟩
    exact (applyMutation_depthLimited h hothers hfits).of_ok hstep

/-- A mutator that returns, called where what it may insert fits. -/
def FittingStep (g : Grammar) (mutationFalloff : F) (tree : TreeNode) (call : MutationCall)
    (newTree : TreeNode) : Prop :=
  g.CallFits mutationFalloff tree call.interestingTrees call.mutation ∧
    g.MutationStep mutationFalloff tree call newTree

/-- **The depth limit holds as long as every splice fits.**  Any number of mutators, with any
draws, keep it if each of them is called where what it may insert fits; and where a mutator
keeps it whatever the draws, what it may insert fits. -/
theorem depthLimited_runs (g : Grammar) (mutationFalloff : F) :
    (∀ tree calls newTree, DepthLimited tree →
      (∀ call ∈ calls, ∀ t ∈ call.interestingTrees, DepthLimited t) →
      Run (g.FittingStep mutationFalloff) tree calls newTree → DepthLimited newTree) ∧
    ∀ tree interestingTrees mutation, DepthLimited tree → (∀ t ∈ interestingTrees, DepthLimited t) →
      ((∀ draws newTree,
          g.MutationStep mutationFalloff tree ⟨mutation, interestingTrees, draws⟩ newTree →
            DepthLimited newTree) ↔
        g.CallFits mutationFalloff tree interestingTrees mutation) := by
  refine ⟨fun tree calls newTree h hothers hrun => ?_, fun _ _ _ => callFits_iff⟩
  refine hrun.invariant_of (fun call => ∀ t ∈ call.interestingTrees, DepthLimited t)
    (fun _ t => DepthLimited t) hothers h ?_
  rintro _ t call u ht hcall ⟨hfits, hstep⟩
  exact (callFits_iff ht hcall).2 hfits call.draws u hstep

/-! ### A splice below the limit -/

/-- `<root> = <root>` and `<root> = x`. -/
def chainGrammar : Grammar :=
  ⟨[⟨str "root", false, none, false,
    [⟨str "root", [.symbol (str "root") 0 []]⟩, ⟨str "root", [.string (str "x")]⟩]⟩]⟩

/-- The tree of `chainGrammar` with this depth. -/
def chain : ℕ → TreeNode
  | 0 => .node (.symbol (str "root")) [generateStringNode (str "x")]
  | n + 1 => .node (.symbol (str "root")) [chain n]

/-- The chains are trees of the grammar: each node but the last uses the rule that goes on,
and the last one the rule that ends the chain.  -/
theorem conforming_chain (n : ℕ) : chainGrammar.ConformingOf (str "root") (chain n) := by
  induction n with
  | zero =>
      refine ⟨rfl, .node ⟨_, rfl, ?_⟩ fun c hc => ?_⟩
      · exact ⟨_, List.mem_cons_of_mem _ List.mem_cons_self, partsFit_nil.concat rfl⟩
      · cases List.mem_singleton.1 hc
        exact .node trivial fun c hc => absurd hc List.not_mem_nil
  | succ n ih =>
      refine ⟨rfl, .node ⟨_, rfl, ?_⟩ fun c hc => ?_⟩
      · refine ⟨_, List.mem_cons_self, ?_⟩
        rw [List.map_cons, ih.1]
        exact partsFit_nil.concat (Or.inl rfl)
      · cases List.mem_singleton.1 hc
        exact ih.2

/-- A chain is as deep as it is long, so it is within a limit exactly up to that length.  -/
theorem depthAtMost_chain {limit n depth : ℕ} (h : depth + n ≤ limit) :
    Foundation.Tree.DepthAtMost NodeData.IsSymbol limit depth (chain n) := by
  induction n generalizing depth with
  | zero =>
      refine Foundation.Tree.depthAtMost_node.2 ⟨fun _ => h, fun c hc => ?_⟩
      cases List.mem_singleton.1 hc
      exact Foundation.Tree.depthAtMost_node.2 ⟨fun h => h.elim, fun _ hc => absurd hc List.not_mem_nil⟩
  | succ n ih =>
      refine Foundation.Tree.depthAtMost_node.2 ⟨fun _ => by omega, fun c hc => ?_⟩
      cases List.mem_singleton.1 hc
      exact ih (by omega)

/-- A splice of two trees of depth 1: the draws select the root of both, what is inserted
fits, and the tree keeps the limit.  The run has one step, and its condition is the one on
what the step may select.  -/
theorem depthLimited_runs_chain : ∃ newTree,
    Run (chainGrammar.FittingStep (1 : ℚ)) (chain 1) [⟨.splice, [chain 1], [4294967295, 0, 0]⟩] newTree ∧
      DepthLimited newTree := by
  obtain ⟨newTree, hstep, -⟩ := exists_mutationStep chainGrammar (1 : ℚ) (chain 1)
    ⟨.splice, [chain 1], [4294967295, 0, 0]⟩ (fun _ => true) (by decide +kernel)
  have hrun : Run (chainGrammar.FittingStep (1 : ℚ)) (chain 1)
      [⟨.splice, [chain 1], [4294967295, 0, 0]⟩] newTree := by
    have hshallow : Foundation.Tree.DepthAtMost NodeData.IsSymbol 1 0 (chain 1) := depthAtMost_chain le_rfl
    refine Run.single ⟨spliceFits_of_shallow hshallow ?_, hstep⟩
    intro t ht
    cases List.mem_singleton.1 ht
    exact depthAtMost_chain (by decide)
  refine ⟨newTree, hrun, (depthLimited_runs chainGrammar (1 : ℚ)).1 (chain 1) _ newTree
    (depthAtMost_chain (by decide)) ?_ hrun⟩
  intro call hcall t ht
  cases List.mem_singleton.1 hcall
  cases List.mem_singleton.1 ht
  exact depthAtMost_chain (by decide)

/-- A tree of depth 1, spliced in at the deepest node of a tree of depth 100. Both conform
to the grammar and keep the limit, and the result of `SpliceMutator` is deeper than
`MAX_DEPTH`. -/
theorem splice_exceedsMaxDepth :
    chainGrammar.ConformingOf (str "root") (chain 100) ∧ DepthLimited (chain 100) ∧
      chainGrammar.ConformingOf (str "root") (chain 1) ∧ DepthLimited (chain 1) ∧
      ∃ newTree, chainGrammar.MutationStep (1 : ℚ) (chain 100)
        ⟨.splice, [chain 1], [4294967295, 0, 0]⟩ newTree ∧ ¬ DepthLimited newTree := by
  obtain ⟨newTree, hstep, hdeep⟩ := exists_mutationStep chainGrammar (1 : ℚ) (chain 100)
    ⟨.splice, [chain 1], [4294967295, 0, 0]⟩
    (fun newTree => (newTree.get? (List.replicate 101 0)).any fun u => u.label = .symbol (str "root"))
    (by decide +kernel)
  refine ⟨conforming_chain 100, depthAtMost_chain le_rfl, conforming_chain 1,
    depthAtMost_chain (by decide), newTree, hstep, fun hlimited => ?_⟩
  obtain ⟨u, hu, hlabel⟩ := (Option.any_eq_true _ _).1 hdeep
  have hle := hlimited (List.replicate 101 0) u hu (by rw [of_decide_eq_true hlabel]; trivial)
  rw [List.length_replicate] at hle
  exact absurd hle (by decide)

end Grammar
end Jackalope
