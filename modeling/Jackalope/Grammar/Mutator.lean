/-
# The grammar mutator

`GrammarMutator` of `mutators/grammar/grammarmutator.cpp`.  A pointer to a node of a
tree is the path to it.  Nodes are selected by weights that are `double`s.  Their
arithmetic is a parameter, and nothing is assumed of it: whatever the weights are, the
node that is selected is a candidate.

`interesting_trees` may be pushed to by other threads between any two steps, so each
step is given the trees that it finds there.

Each of the four mutators replaces one subtree of the current tree.  What it puts
there has the symbol that was there, and is conforming: it was generated, or copied
from a conforming tree, or it is a repeat node whose children were generated, copied,
or there before.
-/

import Jackalope.Foundation.Run
import Jackalope.Grammar.Codec
import Mathlib.Algebra.Order.Ring.Rat

namespace Jackalope
namespace Grammar

open Foundation Foundation.Consumer

/-! ### Candidates -/

/-- The operations on `double` that the mutator uses. -/
class DoubleArith (F : Type) where
  zero : F
  one : F
  add : F → F → F
  mul : F → F → F
  div : F → F → F
  /-- `a < b`. -/
  less : F → F → Bool
  /-- `a == b`. -/
  equal : F → F → Bool
  /-- `RandReal()` for a draw, which is `Rand() * (1.0 / 4294967295.0)`. -/
  randReal : UInt32 → F

/-- IEEE doubles. -/
instance : DoubleArith Float where
  zero := 0
  one := 1
  add a b := a + b
  mul a b := a * b
  div a b := a / b
  less a b := decide (a < b)
  equal a b := a == b
  randReal r := r.toFloat * (1.0 / 4294967295.0)

/-- Exact arithmetic, for runs in which doubles are exact. -/
instance : DoubleArith ℚ where
  zero := 0
  one := 1
  add a b := a + b
  mul a b := a * b
  div a b := a / b
  less a b := decide (a < b)
  equal a b := decide (a = b)
  randReal r := r.toNat / 4294967295

variable {F : Type} [DoubleArith F]

/-- `GrammarMutator::MutationCandidate`. -/
structure MutationCandidate (F : Type) where
  node : List ℕ
  depth : ℕ
  p : F

/-- The parameter `p` of `GetMutationCandidates` at a depth. -/
def candidateP (mutationFalloff : F) : ℕ → F
  | 0 => DoubleArith.one
  | depth + 1 => DoubleArith.div (candidateP mutationFalloff depth) mutationFalloff

/-- `node->symbol->repeat`. -/
def isRepeat (g : Grammar) (name : Bytes) : Bool := (g.getSymbol name).any Symbol.isRepeat

/-- The nodes that `GetMutationCandidates` does not go into. -/
def skips (maxdepth : ℕ) : NodeData → ℕ → Bool
  | .string _, _ => true
  | .symbol _, depth => maxdepth < depth

/-- The nodes that it pushes. -/
def accepts (g : Grammar) (filter : Option Bytes) (justRepeat : Bool) : NodeData → ℕ → Bool
  | .string _, _ => false
  | .symbol name, _ => (filter = none || filter = some name) && (!justRepeat || g.isRepeat name)

/-- `GetMutationCandidates`, from the root. -/
def getMutationCandidates (g : Grammar) (mutationFalloff : F) (tree : TreeNode)
    (filter : Option Bytes) (maxdepth : ℕ) (justRepeat : Bool) : List (MutationCandidate F) :=
  (Foundation.Tree.list (skips maxdepth) (g.accepts filter justRepeat) tree 0).map
    fun (node, depth) => ⟨node, depth, candidateP mutationFalloff depth⟩

/-- The second loop of `GetNodeToMutate`. -/
def pickCandidate (p sum : F) : List (MutationCandidate F) → Option (MutationCandidate F)
  | [] => none
  | candidate :: candidates =>
      let sum := DoubleArith.add sum candidate.p
      if DoubleArith.less p sum || candidates.isEmpty then some candidate
      else pickCandidate p sum candidates

/-- `GetNodeToMutate`. -/
def getNodeToMutate (candidates : List (MutationCandidate F)) : Draws (Option (MutationCandidate F)) :=
  let psum := candidates.foldl (fun psum candidate => DoubleArith.add psum candidate.p) DoubleArith.zero
  if candidates.isEmpty || DoubleArith.equal psum DoubleArith.zero then pure none
  else do
    let r ← rand
    pure (pickCandidate (DoubleArith.mul (DoubleArith.randReal r) psum) DoubleArith.zero candidates)

/-! ### Mutators -/

/-- The symbol and the children of the node that a pointer leads to. -/
def symbolNodeAt (tree : TreeNode) (node : List ℕ) : Draws (Bytes × List TreeNode) :=
  match tree.get? node with
  | some (.node (.symbol name) children) => pure (name, children)
  | _ => fail .undefined

/-- A random element of `interesting_trees`, if there is one. -/
def otherTree (interestingTrees : List TreeNode) : Draws (Option TreeNode) :=
  if interestingTrees.isEmpty then pure none
  else do
    let k ← randMod interestingTrees.length
    match interestingTrees[k]? with
    | some other => pure (some other)
    | none => fail .undefined

/-- The assignment of a new list of children. -/
def setChildren (children : List TreeNode) : TreeNode → TreeNode
  | .node data _ => .node data children

/-- `ReplaceNode`. -/
def replaceNode (g : Grammar) (candidates : List (MutationCandidate F)) (tree : TreeNode) :
    Draws (TreeNode × Bool) := do
  match ← getNodeToMutate candidates with
  | none => fail .fatal
  | some candidate =>
      let (symbol, _) ← symbolNodeAt tree candidate.node
      match ← g.generateTree (some symbol) candidate.depth with
      | some replacement =>
          pure (Foundation.Tree.update (fun _ => replacement) candidate.node tree, true)
      | none => pure (tree, false)

/-- `Splice`. -/
def splice (g : Grammar) (mutationFalloff : F) (candidates : List (MutationCandidate F))
    (interestingTrees : List TreeNode) (tree : TreeNode) : Draws (TreeNode × Bool) := do
  match ← getNodeToMutate candidates with
  | none => pure (tree, false)
  | some candidate =>
      match ← otherTree interestingTrees with
      | none => pure (tree, false)
      | some other =>
          let (symbol, _) ← symbolNodeAt tree candidate.node
          match ← getNodeToMutate
            (g.getMutationCandidates mutationFalloff other (some symbol) candidate.depth false) with
          | none => pure (tree, false)
          | some otherCandidate =>
              match other.get? otherCandidate.node with
              | some copy =>
                  pure (Foundation.Tree.update (fun _ => copy) candidate.node tree, true)
              | none => fail .undefined

/-- `mutate_position`, or `other_position`. -/
def mutatePosition (children : List TreeNode) : Draws ℕ :=
  if children.isEmpty then pure 0 else randMod children.length

/-- A round of the loop that generates new children. -/
def newChildrenBody (generate : Draws (Option TreeNode)) (newChildren : List TreeNode) :
    Draws (List TreeNode ⊕ List TreeNode) := do
  let child ← generate
  let r ← rand
  if over75 r then pure (.inr (newChildren ++ child.toList))
  else pure (.inl (newChildren ++ child.toList))

/-- The new children of a repeat node, if any are to be inserted. -/
def generateNewChildren (g : Grammar) (doInsert : Bool) (repeatSymbol : Option Bytes)
    (depth : ℕ) : Draws (List TreeNode) :=
  if doInsert then loop .noDraws (newChildrenBody (g.generateTree repeatSymbol depth)) []
  else pure []

/-- A round of the loop that deletes the child at the position. -/
def deleteBody (position : ℕ) (children : List TreeNode) :
    Draws (List TreeNode ⊕ List TreeNode) :=
  if children.length ≤ position then pure (.inr children)
  else do
    let r ← rand
    if over75 r then pure (.inr (children.eraseIdx position))
    else pure (.inl (children.eraseIdx position))

/-- Delete children, if any are to be deleted. -/
def deleteChildren (doDelete : Bool) (position : ℕ) (children : List TreeNode) :
    Draws (List TreeNode) :=
  if doDelete then loop .noDraws (deleteBody position) children else pure children

/-- Insert children behind the one at the position, or at the end. -/
def insertChildren (position : ℕ) (newChildren children : List TreeNode) : List TreeNode :=
  let position := if position < children.length then position + 1 else position
  children.take position ++ newChildren ++ children.drop position

/-- `RepeatMutator`. -/
def repeatMutator (g : Grammar) (repeatCandidates : List (MutationCandidate F)) (tree : TreeNode) :
    Draws (TreeNode × Bool) := do
  match ← getNodeToMutate repeatCandidates with
  | none => pure (tree, false)
  | some candidate =>
      let (name, children) ← symbolNodeAt tree candidate.node
      let position ← mutatePosition children
      let r ← rand
      let doDelete := below40 r
      let doInsert := !below20 r
      let symbol ← g.deref (some name)
      let newChildren ←
        g.generateNewChildren doInsert symbol.repeatSymbol (candidate.depth + 1)
      if doInsert && newChildren.isEmpty then pure (tree, false)
      else do
        let rest ← deleteChildren doDelete position children
        pure (Foundation.Tree.update
          (setChildren (if doInsert then insertChildren position newChildren rest else rest))
          candidate.node tree, true)

/-- A round of the loop that copies children, with those that are still to come. -/
def copyBody : List TreeNode × List TreeNode →
    Draws (List TreeNode × List TreeNode ⊕ List TreeNode)
  | (copies, []) => pure (.inr copies)
  | (copies, child :: rest) => do
      let r ← rand
      if over75 r then pure (.inr (copies ++ [child]))
      else pure (.inl (copies ++ [child], rest))

/-- `RepeatSplice`. -/
def repeatSplice (g : Grammar) (mutationFalloff : F)
    (repeatCandidates : List (MutationCandidate F)) (interestingTrees : List TreeNode)
    (tree : TreeNode) : Draws (TreeNode × Bool) := do
  match ← getNodeToMutate repeatCandidates with
  | none => pure (tree, false)
  | some candidate =>
      match ← otherTree interestingTrees with
      | none => pure (tree, false)
      | some other =>
          let (name, children) ← symbolNodeAt tree candidate.node
          match ← getNodeToMutate
            (g.getMutationCandidates mutationFalloff other (some name) candidate.depth true) with
          | none => pure (tree, false)
          | some otherCandidate =>
              let (_, otherChildren) ← symbolNodeAt other otherCandidate.node
              let position ← mutatePosition children
              let otherPosition ← mutatePosition otherChildren
              let r ← rand
              let rest ← deleteChildren (below40 r) position children
              let copies ← loop .noDraws copyBody ([], otherChildren.drop otherPosition)
              pure (Foundation.Tree.update (setChildren (insertChildren position copies rest))
                candidate.node tree, true)

/-! ### `Mutate` -/

/-- The mutators of `Mutate`. -/
inductive Mutation
  | replaceNode
  | splice
  | repeatMutator
  | repeatSplice
  deriving DecidableEq

/-- A mutator, with the candidates that `Mutate` makes for it. -/
def applyMutation (g : Grammar) (mutationFalloff : F) (interestingTrees : List TreeNode)
    (tree : TreeNode) (mutation : Mutation) : Draws (TreeNode × Bool) :=
  let candidates := g.getMutationCandidates mutationFalloff tree none maxDepth false
  let repeatCandidates := g.getMutationCandidates mutationFalloff tree none maxDepth true
  match mutation with
  | .replaceNode => g.replaceNode candidates tree
  | .splice => g.splice mutationFalloff candidates interestingTrees tree
  | .repeatMutator => g.repeatMutator repeatCandidates tree
  | .repeatSplice => g.repeatSplice mutationFalloff repeatCandidates interestingTrees tree

/-- What a mutator finds when it is called: the trees that are interesting by then, and
the draws to come. -/
structure MutationCall where
  mutation : Mutation
  interestingTrees : List TreeNode
  draws : List UInt32

/-- A mutator that returns, and the tree that it leaves. -/
def MutationStep (g : Grammar) (mutationFalloff : F) (tree : TreeNode) (call : MutationCall)
    (newTree : TreeNode) : Prop :=
  ∃ success rest,
    g.applyMutation mutationFalloff call.interestingTrees tree call.mutation call.draws =
      .ok ((newTree, success), rest)

/-- The mutator for the draw `r`. -/
def selectMutation (r : UInt32) : Mutation :=
  if below30 r then .replaceNode
  else if below50 r then .splice
  else if below80 r then .repeatMutator
  else .repeatSplice

/-- The rounds of `Mutate` that are left; in each, `interestingTrees` is what the vector
has then. -/
def mutateRounds (g : Grammar) (mutationFalloff : F) (interestingTrees : ℕ → List TreeNode) :
    ℕ → TreeNode → Draws TreeNode
  | 0, tree => pure tree
  | rounds + 1, tree => do
      let select ← rand
      let (newTree, success) ← g.applyMutation mutationFalloff (interestingTrees rounds) tree
        (selectMutation select)
      if success then do
        let r ← rand
        if over50 r then pure newTree
        else g.mutateRounds mutationFalloff interestingTrees rounds newTree
      else g.mutateRounds mutationFalloff interestingTrees rounds newTree

/-- In a small number of cases, a tree is generated. -/
def generateNew (g : Grammar) (select : UInt32) : Draws (Option TreeNode) :=
  if below10 select then g.generateTreeNamed (str "root") else pure none

/-- The tree that `Mutate` encodes. -/
def mutateTree (g : Grammar) (mutationFalloff : F) (interestingTrees : ℕ → List TreeNode)
    (currentSample : TreeNode) : Draws TreeNode := do
  let select ← rand
  match ← g.generateNew select with
  | some tree => pure tree
  | none => g.mutateRounds mutationFalloff interestingTrees 100 currentSample

/-- `Mutate`. -/
def mutate (g : Grammar) (mutationFalloff : F) (interestingTrees : ℕ → List TreeNode)
    (currentSample : TreeNode) : Draws (Option Sample) := do
  let newSample ← g.mutateTree mutationFalloff interestingTrees currentSample
  pure (encodeSample newSample)

/-! ### What is selected -/

variable {g : Grammar} {mutationFalloff : F} {tree : TreeNode}

/-- **A candidate is a symbol node of the tree**, with the symbol that was asked for, at a
depth within the limit, and a repeat node where only those were asked for.  -/
theorem mem_getMutationCandidates {filter : Option Bytes} {maxdepth : ℕ} {justRepeat : Bool}
    {candidate : MutationCandidate F}
    (h : candidate ∈ g.getMutationCandidates mutationFalloff tree filter maxdepth justRepeat) :
    ∃ name children, tree.get? candidate.node = some (.node (.symbol name) children) ∧
      candidate.depth ≤ maxdepth ∧ (∀ other, filter = some other → name = other) ∧
      (justRepeat = true → g.isRepeat name = true) := by
  obtain ⟨⟨node, depth⟩, hmem, rfl⟩ := List.mem_map.1 h
  obtain ⟨⟨data, children⟩, hget, hstop, hkeep⟩ := Foundation.Tree.get?_of_mem_list hmem
  cases data with
  | string value => exact absurd hstop (by simp [skips])
  | symbol name =>
      have hdepth : ¬ maxdepth < depth := of_decide_eq_false hstop
      obtain ⟨hfilter, hrepeat⟩ := Bool.and_eq_true_iff.1 hkeep
      refine ⟨name, children, hget, not_lt.1 hdepth, fun other hother => ?_, fun hjust => ?_⟩
      · subst hother
        simpa [eq_comm] using hfilter
      · simpa [hjust] using hrepeat

/-- Whatever the weights are, the loop stops at one of the candidates, at the last one if at
no other.  -/
theorem mem_of_pickCandidate {p sum : F} {candidates : List (MutationCandidate F)}
    {candidate : MutationCandidate F} (h : pickCandidate p sum candidates = some candidate) :
    candidate ∈ candidates := by
  induction candidates generalizing sum with
  | nil => cases h
  | cons c candidates ih =>
      rw [pickCandidate] at h
      split at h
      · cases h
        exact List.mem_cons_self
      · exact List.mem_cons_of_mem _ (ih h)

/-- Being out of draws is nothing undefined. -/
theorem Spec.defined {α : Type} {m : Draws α} {Q : α → Prop} (h : Spec m Q (· = .noDraws)) :
    Spec m Q (· ≠ .undefined) :=
  h.mono_error fun e he => by
    subst he
    exact Stop.noConfusion

/-- **The node that is selected is a candidate.** None is selected if there are no
candidates or their weights add up to zero.  -/
theorem getNodeToMutate_spec (candidates : List (MutationCandidate F)) :
    Spec (getNodeToMutate candidates) (OrNull (· ∈ candidates)) (· ≠ .undefined) := by
  rw [getNodeToMutate]
  split
  · exact Spec.pure (orNull_none _)
  · refine (Spec.defined spec_rand).bind fun r _ => Spec.pure ?_
    intro candidate h
    exact mem_of_pickCandidate h

/-- A pointer to a symbol node can be followed.  -/
theorem symbolNodeAt_eq {node : List ℕ} {name : Bytes} {children : List TreeNode}
    (h : tree.get? node = some (.node (.symbol name) children)) :
    symbolNodeAt tree node = pure (name, children) := by
  rw [symbolNodeAt, h]

/-- The other tree is one of the interesting ones, if there are any; if there are none, the
mutator gives up.  -/
theorem otherTree_spec (interestingTrees : List TreeNode) :
    Spec (otherTree interestingTrees) (OrNull (· ∈ interestingTrees)) (· ≠ .undefined) := by
  rw [otherTree]
  split
  · exact Spec.pure (orNull_none _)
  · rename_i hempty
    have hpos : 0 < interestingTrees.length :=
      List.length_pos_of_ne_nil fun h => hempty (by rw [h]; rfl)
    refine (Spec.defined (spec_randMod hpos)).bind fun k hk => ?_
    rw [List.getElem?_eq_getElem hk]
    exact Spec.pure (orNull_some (List.getElem_mem hk))

/-- What is selected depends on one draw.  -/
theorem isLocal_getNodeToMutate (candidates : List (MutationCandidate F)) :
    IsLocal (getNodeToMutate candidates) := by
  rw [getNodeToMutate]
  split
  · exact IsLocal.pure _
  · exact isLocal_rand.bind fun _ => IsLocal.pure _

/-- So does the other tree.  -/
theorem isLocal_otherTree (interestingTrees : List TreeNode) : IsLocal (otherTree interestingTrees) := by
  rw [otherTree]
  split
  · exact IsLocal.pure _
  · refine (isLocal_randMod _).bind fun k => ?_
    split
    · exact IsLocal.pure _
    · exact IsLocal.fail _

/-- `GetNodeToMutate` selects this candidate of `GetMutationCandidates` for some draws. -/
def MaySelect (g : Grammar) (mutationFalloff : F) (tree : TreeNode) (filter : Option Bytes)
    (maxdepth : ℕ) (justRepeat : Bool) (candidate : MutationCandidate F) : Prop :=
  MayReturn (getNodeToMutate (g.getMutationCandidates mutationFalloff tree filter maxdepth justRepeat))
    (some candidate)

variable {filter : Option Bytes} {maxdepth : ℕ} {justRepeat : Bool} {candidate : MutationCandidate F}

/-- A node that may be selected is a candidate.  -/
theorem MaySelect.mem (h : g.MaySelect mutationFalloff tree filter maxdepth justRepeat candidate) :
    candidate ∈ g.getMutationCandidates mutationFalloff tree filter maxdepth justRepeat := by
  obtain ⟨used, hused⟩ := h
  exact (getNodeToMutate_spec _).of_ok (hused []) candidate rfl

/-- What `Splice`, or `RepeatSplice` for `justRepeat`, selects for some draws: a node of the
tree, an interesting tree, and a node of that. -/
structure SpliceSelection (g : Grammar) (mutationFalloff : F) (tree : TreeNode)
    (interestingTrees : List TreeNode) (justRepeat : Bool) (candidate : MutationCandidate F)
    (name : Bytes) (children : List TreeNode) (other : TreeNode)
    (otherCandidate : MutationCandidate F) : Prop where
  select : g.MaySelect mutationFalloff tree none maxDepth justRepeat candidate
  node : tree.get? candidate.node = some (.node (.symbol name) children)
  found : MayReturn (otherTree interestingTrees) (some other)
  selectOther : g.MaySelect mutationFalloff other (some name) candidate.depth justRepeat otherCandidate

/-- How `Splice` and `RepeatSplice` begin; `go` is what they do with what is selected. -/
def selectSplice (g : Grammar) (mutationFalloff : F) (candidates : List (MutationCandidate F))
    (interestingTrees : List TreeNode) (tree : TreeNode) (justRepeat : Bool)
    (go : MutationCandidate F → List TreeNode → TreeNode → MutationCandidate F →
      Draws (TreeNode × Bool)) : Draws (TreeNode × Bool) := do
  match ← getNodeToMutate candidates with
  | none => pure (tree, false)
  | some candidate =>
      match ← otherTree interestingTrees with
      | none => pure (tree, false)
      | some other =>
          let (symbol, children) ← symbolNodeAt tree candidate.node
          match ← getNodeToMutate
            (g.getMutationCandidates mutationFalloff other (some symbol) candidate.depth justRepeat) with
          | none => pure (tree, false)
          | some otherCandidate => go candidate children other otherCandidate

/-- The end of `Splice`. -/
def spliceNode (tree : TreeNode) (candidate : MutationCandidate F) (other : TreeNode)
    (otherCandidate : MutationCandidate F) : Draws (TreeNode × Bool) :=
  match other.get? otherCandidate.node with
  | some copy => pure (Foundation.Tree.update (fun _ => copy) candidate.node tree, true)
  | none => fail .undefined

/-- The end of `RepeatSplice`. -/
def spliceChildren (tree : TreeNode) (candidate : MutationCandidate F) (children : List TreeNode)
    (other : TreeNode) (otherCandidate : MutationCandidate F) : Draws (TreeNode × Bool) := do
  let (_, otherChildren) ← symbolNodeAt other otherCandidate.node
  let position ← mutatePosition children
  let otherPosition ← mutatePosition otherChildren
  let r ← rand
  let rest ← deleteChildren (below40 r) position children
  let copies ← loop .noDraws copyBody ([], otherChildren.drop otherPosition)
  pure (Foundation.Tree.update (setChildren (insertChildren position copies rest)) candidate.node tree,
    true)

variable {candidates : List (MutationCandidate F)} {interestingTrees : List TreeNode}

/-- `Splice` is the selection that both splices begin with, and then the assignment of the
subtree.  -/
theorem splice_eq : g.splice mutationFalloff candidates interestingTrees tree =
    g.selectSplice mutationFalloff candidates interestingTrees tree false
      fun candidate _ other otherCandidate => spliceNode tree candidate other otherCandidate := rfl

/-- `RepeatSplice` is the same selection, among repeat nodes, and then the assignment of the
children.  -/
theorem repeatSplice_eq : g.repeatSplice mutationFalloff candidates interestingTrees tree =
    g.selectSplice mutationFalloff candidates interestingTrees tree true (spliceChildren tree) := rfl

variable {go : MutationCandidate F → List TreeNode → TreeNode → MutationCandidate F →
  Draws (TreeNode × Bool)}

/-- **Either nothing is selected, and the tree stays, or a selection is used.** What is
proved of both splicing mutators goes through this: they differ only in what they do with
the two nodes.  -/
theorem selectSplice_spec {Q : TreeNode × Bool → Prop} {E : Stop → Prop}
    (hE : ∀ e, e ≠ .undefined → E e) (hnone : Q (tree, false))
    (hgo : ∀ candidate name children other otherCandidate,
      g.SpliceSelection mutationFalloff tree interestingTrees justRepeat candidate name children other
        otherCandidate → Spec (go candidate children other otherCandidate) Q E) :
    Spec (g.selectSplice mutationFalloff
      (g.getMutationCandidates mutationFalloff tree none maxDepth justRepeat) interestingTrees tree
      justRepeat go) Q E := by
  have hnode (cs : List (MutationCandidate F)) :=
    (isLocal_getNodeToMutate cs).spec ((getNodeToMutate_spec cs).mono_error hE)
  refine (hnode _).bind fun selected hselected => ?_
  cases selected with
  | none => exact Spec.pure hnone
  | some candidate =>
      have hselect : g.MaySelect mutationFalloff tree none maxDepth justRepeat candidate := hselected
      obtain ⟨name, children, hget, -⟩ := mem_getMutationCandidates hselect.mem
      refine ((isLocal_otherTree interestingTrees).spec
        ((otherTree_spec interestingTrees).mono_error hE)).bind fun found hfound => ?_
      cases found with
      | none => exact Spec.pure hnone
      | some other =>
          dsimp only
          rw [symbolNodeAt_eq hget, pure_bind]
          refine (hnode _).bind fun selected' hselected' => ?_
          cases selected' with
          | none => exact Spec.pure hnone
          | some otherCandidate =>
              exact hgo candidate name children other otherCandidate ⟨hselect, hget, hfound, hselected'⟩

/-- What may be selected may be used: there are draws that select these nodes, and behind
them come those of the splice.  -/
theorem SpliceSelection.mayReturn {candidate : MutationCandidate F} {name : Bytes}
    {children : List TreeNode} {other : TreeNode} {otherCandidate : MutationCandidate F}
    {result : TreeNode × Bool}
    (h : g.SpliceSelection mutationFalloff tree interestingTrees justRepeat candidate name children other
      otherCandidate) (hgo : MayReturn (go candidate children other otherCandidate) result) :
    MayReturn (g.selectSplice mutationFalloff
      (g.getMutationCandidates mutationFalloff tree none maxDepth justRepeat) interestingTrees tree
      justRepeat go) result := by
  refine h.select.bind (h.found.bind ?_)
  dsimp only
  rw [symbolNodeAt_eq h.node, pure_bind]
  exact h.selectOther.bind hgo

/-- The other node is there, is not deeper, and has the same symbol, since the candidates of
the other tree are listed with these conditions.  -/
theorem SpliceSelection.otherNode {candidate : MutationCandidate F} {name : Bytes}
    {children : List TreeNode} {other : TreeNode} {otherCandidate : MutationCandidate F}
    (h : g.SpliceSelection mutationFalloff tree interestingTrees justRepeat candidate name children other
      otherCandidate) :
    other ∈ interestingTrees ∧ otherCandidate.depth ≤ candidate.depth ∧ ∃ otherChildren,
      other.get? otherCandidate.node = some (.node (.symbol name) otherChildren) := by
  obtain ⟨used, hused⟩ := h.found
  obtain ⟨name', otherChildren, hget, hdepth, hfilter, -⟩ := mem_getMutationCandidates h.selectOther.mem
  cases hfilter name rfl
  exact ⟨(otherTree_spec interestingTrees).of_ok (hused []) other rfl, hdepth, otherChildren, hget⟩

/-- A position is drawn within the children, and 0 if there are none; drawing it does
nothing undefined.  -/
theorem mutatePosition_spec (children : List TreeNode) :
    Spec (mutatePosition children) (fun _ => True) (· ≠ .undefined) := by
  rw [mutatePosition]
  split
  · exact Spec.pure trivial
  · rename_i hempty
    have hpos : 0 < children.length :=
      List.length_pos_of_ne_nil fun h => hempty (by rw [h]; rfl)
    exact (Spec.defined (spec_randMod hpos)).mono fun _ _ => trivial

/-! ### What is put into the tree -/

variable {Q : TreeNode → Prop} {children : List TreeNode}

/-- All new children were generated, so what is known of every generated tree is known of
them; if any of them could not be generated, it is left out.  -/
theorem generateNewChildren_spec {E : Stop → Prop} {repeatSymbol : Option Bytes} {depth : ℕ}
    (doInsert : Bool) (hE : E .noDraws) (h : Spec (g.generateTree repeatSymbol depth) (OrNull Q) E) :
    Spec (g.generateNewChildren doInsert repeatSymbol depth) (fun cs => ∀ c ∈ cs, Q c) E := by
  rw [generateNewChildren]
  split
  · refine Spec.loop (fun cs => ∀ c ∈ cs, Q c) hE (fun cs hcs => ?_)
      fun c hc => absurd hc List.not_mem_nil
    refine h.bind fun child hchild => ?_
    have hall : ∀ c ∈ cs ++ child.toList, Q c := by
      intro c hc
      rcases List.mem_append.1 hc with hc | hc
      · exact hcs c hc
      · exact hchild c (Option.mem_toList.1 hc)
    refine (spec_rand.mono_error fun e he => he ▸ hE).bind fun r _ => ?_
    split
    · exact Spec.pure hall
    · exact Spec.pure hall
  · exact Spec.pure fun c hc => absurd hc List.not_mem_nil

/-- Deleting leaves children that were there: a part of the list is cut out from the
position on, and what is left keeps its order.  -/
theorem deleteChildren_spec (doDelete : Bool) (position : ℕ) (h : ∀ c ∈ children, Q c) :
    Spec (deleteChildren doDelete position children) (fun cs => ∀ c ∈ cs, Q c)
      (· ≠ .undefined) := by
  rw [deleteChildren]
  split
  · refine Spec.loop (fun cs => ∀ c ∈ cs, Q c) Stop.noConfusion (fun cs hcs => ?_) h
    rw [deleteBody]
    split
    · exact Spec.pure hcs
    · have hall : ∀ c ∈ cs.eraseIdx position, Q c := fun c hc => hcs c (List.mem_of_mem_eraseIdx hc)
      refine (Spec.defined spec_rand).bind fun r _ => ?_
      split
      · exact Spec.pure hall
      · exact Spec.pure hall
  · exact Spec.pure h

/-- The copies are children that were there, in their order: the first ones, up to the child
at which a draw ends the loop.  -/
theorem copyLoop_spec (h : ∀ c ∈ children, Q c) :
    Spec (loop .noDraws copyBody ([], children)) (fun cs => ∀ c ∈ cs, Q c) (· ≠ .undefined) := by
  refine Spec.loop (fun s => (∀ c ∈ s.1, Q c) ∧ ∀ c ∈ s.2, Q c) Stop.noConfusion ?_
    ⟨fun c hc => absurd hc List.not_mem_nil, h⟩
  rintro ⟨copies, rest⟩ ⟨hcopies, hrest⟩
  cases rest with
  | nil => exact Spec.pure hcopies
  | cons child rest =>
      have hall : ∀ c ∈ copies ++ [child], Q c := by
        intro c hc
        rcases List.mem_append.1 hc with hc | hc
        · exact hcopies c hc
        · cases List.mem_singleton.1 hc
          exact hrest child List.mem_cons_self
      rw [copyBody]
      refine (Spec.defined spec_rand).bind fun r _ => ?_
      split
      · exact Spec.pure hall
      · exact Spec.pure ⟨hall, fun c hc => hrest c (List.mem_cons_of_mem _ hc)⟩

/-- What is known of the old and of the new children is known of all of them behind the
insertion.  -/
theorem mem_insertChildren {position : ℕ} {newChildren : List TreeNode}
    (hnew : ∀ c ∈ newChildren, Q c) (h : ∀ c ∈ children, Q c) :
    ∀ c ∈ insertChildren position newChildren children, Q c := by
  intro c hc
  rw [insertChildren] at hc
  rcases List.mem_append.1 hc with hc | hc
  · rcases List.mem_append.1 hc with hc | hc
    · exact h c (List.mem_of_mem_take hc)
    · exact hnew c hc
  · exact h c (List.mem_of_mem_drop hc)

/-! ### Mutators keep trees conforming -/

variable {root name : Bytes} {node : List ℕ}

/-- **A subtree is replaced by a conforming tree of the same symbol.** -/
theorem ConformingOf.update {f : TreeNode → TreeNode} (h : g.ConformingOf root tree)
    (hget : tree.get? node = some (.node (.symbol name) children))
    (hnew : g.ConformingOf name (f (.node (.symbol name) children))) :
    g.ConformingOf root (Foundation.Tree.update f node tree) :=
  ⟨(Foundation.Tree.label_update hget hnew.1).trans h.1, h.2.update hget hnew.1 hnew.2⟩

/-- The children of a repeat node are conforming trees of one symbol, and any such trees
may be its children. -/
theorem conforming_repeat_iff {symbol : Symbol} {r : Bytes} (hsymbol : g.getSymbol name = some symbol)
    (hrepeat : symbol.isRepeat = true) (hr : symbol.repeatSymbol = some r)
    (children : List TreeNode) :
    g.ConformingOf name (.node (.symbol name) children) ↔ ∀ c ∈ children, g.ConformingOf r c := by
  constructor
  · rintro ⟨-, hconf⟩ c hc
    obtain ⟨⟨symbol', hsymbol', hlicensed⟩, hall⟩ := Foundation.Tree.follows_node.1 hconf
    cases hsymbol.symm.trans hsymbol'
    rw [if_pos hrepeat] at hlicensed
    obtain ⟨r', hr', hlabels⟩ := hlicensed
    cases hr.symm.trans hr'
    exact ⟨hlabels c.label (List.mem_map_of_mem hc), hall c hc⟩
  · intro h
    refine ⟨rfl, .node ⟨symbol, hsymbol, ?_⟩ fun c hc => (h c hc).2⟩
    rw [if_pos hrepeat]
    refine ⟨r, hr, fun data hdata => ?_⟩
    obtain ⟨c, hc, rfl⟩ := List.mem_map.1 hdata
    exact (h c hc).1

/-- A conforming symbol node has a symbol of the grammar. -/
theorem conforming_symbol (h : g.Conforming (.node (.symbol name) children)) :
    ∃ symbol, g.getSymbol name = some symbol := by
  obtain ⟨⟨symbol, hsymbol, -⟩, -⟩ := Foundation.Tree.follows_node.1 h
  exact ⟨symbol, hsymbol⟩

/-- A repeat symbol and what it repeats. -/
theorem Sound.repeats (hg : g.Sound) (h : g.isRepeat name = true) :
    ∃ symbol r, g.getSymbol name = some symbol ∧ symbol.isRepeat = true ∧
      symbol.repeatSymbol = some r ∧ g.Defined r := by
  rw [isRepeat, Option.any_eq_true] at h
  obtain ⟨symbol, hsymbol, hrepeat⟩ := h
  obtain ⟨r, hr, hd⟩ := hg.repeatSymbol symbol (getSymbol_mem hsymbol).1 hrepeat
  exact ⟨symbol, r, hsymbol, hrepeat, hr, hd⟩

/-- The candidates are symbol nodes of the tree; for `justRepeat`, repeat nodes. -/
def AreNodes (g : Grammar) (tree : TreeNode) (justRepeat : Bool)
    (candidates : List (MutationCandidate F)) : Prop :=
  ∀ c ∈ candidates, ∃ name children, tree.get? c.node = some (.node (.symbol name) children) ∧
    (justRepeat = true → g.isRepeat name = true)

/-- **The candidates are nodes of the tree**, with a symbol and at the depth that is noted
for them, and repeat nodes if only these were asked for.  -/
theorem areNodes_getMutationCandidates {filter : Option Bytes} {maxdepth : ℕ} (justRepeat : Bool) :
    g.AreNodes tree justRepeat
      (g.getMutationCandidates mutationFalloff tree filter maxdepth justRepeat) := by
  intro c hc
  obtain ⟨name, children, hget, -, -, hrepeat⟩ := mem_getMutationCandidates hc
  exact ⟨name, children, hget, hrepeat⟩

/-- **`ReplaceNode` keeps the tree conforming**: what it generates has the symbol of the
node that it replaces, and the parent asks for nothing but the symbol.  -/
theorem replaceNode_spec (hg : g.Sound) (h : g.ConformingOf root tree)
    (hcandidates : g.AreNodes tree false candidates) :
    Spec (g.replaceNode candidates tree) (fun result => g.ConformingOf root result.1)
      (· ≠ .undefined) := by
  refine (getNodeToMutate_spec candidates).bind fun selected hselected => ?_
  cases selected with
  | none => exact Spec.fail Stop.noConfusion
  | some candidate =>
      obtain ⟨name, children, hget, -⟩ := hcandidates candidate (hselected candidate rfl)
      dsimp only
      rw [symbolNodeAt_eq hget, pure_bind]
      obtain ⟨symbol, hsymbol⟩ := conforming_symbol (h.2.get? hget)
      have hgenerate := generateTree_spec hg candidate.depth (defined_of_getSymbol hsymbol)
      refine (Spec.defined hgenerate).bind fun result hresult => ?_
      cases result with
      | none => exact Spec.pure h
      | some replacement => exact Spec.pure (h.update hget (hresult replacement rfl))

/-- **`Splice` keeps the tree conforming**: the candidates of the other tree are those with
the symbol of the node that is replaced.  -/
theorem splice_spec (h : g.ConformingOf root tree)
    (hothers : ∀ t ∈ interestingTrees, g.ConformingOf root t) :
    Spec (g.splice mutationFalloff (g.getMutationCandidates mutationFalloff tree none maxDepth false)
      interestingTrees tree) (fun result => g.ConformingOf root result.1) (· ≠ .undefined) := by
  rw [splice_eq]
  refine selectSplice_spec (fun _ he => he) h fun candidate name children other otherCandidate hsel => ?_
  obtain ⟨hmem, -, otherChildren, hget'⟩ := hsel.otherNode
  rw [spliceNode, hget']
  exact Spec.pure (h.update hsel.node ⟨rfl, (hothers other hmem).2.get? hget'⟩)

/-- **`RepeatMutator` keeps the tree conforming**: the children of a repeat node may be any
number of trees of its symbol.  -/
theorem repeatMutator_spec (hg : g.Sound) (h : g.ConformingOf root tree)
    (hcandidates : g.AreNodes tree true candidates) :
    Spec (g.repeatMutator candidates tree) (fun result => g.ConformingOf root result.1)
      (· ≠ .undefined) := by
  refine (getNodeToMutate_spec candidates).bind fun selected hselected => ?_
  cases selected with
  | none => exact Spec.pure h
  | some candidate =>
      obtain ⟨name, children, hget, hrepeat⟩ := hcandidates candidate (hselected candidate rfl)
      obtain ⟨symbol, r, hsymbol, hrepeat, hr, hd⟩ := hg.repeats (hrepeat rfl)
      have hiff := conforming_repeat_iff hsymbol hrepeat hr
      have hchildren := (hiff children).1 ⟨rfl, h.2.get? hget⟩
      dsimp only
      rw [symbolNodeAt_eq hget, pure_bind]
      refine (mutatePosition_spec children).bind fun position _ => ?_
      refine (Spec.defined spec_rand).bind fun draw _ => ?_
      rw [deref_eq hsymbol, pure_bind, hr]
      have hgenerate := Spec.defined (generateTree_spec hg (candidate.depth + 1) hd)
      refine (generateNewChildren_spec _ Stop.noConfusion hgenerate).bind fun newChildren hnew => ?_
      split
      · exact Spec.pure h
      · refine (deleteChildren_spec _ position hchildren).bind fun rest hrest => Spec.pure ?_
        refine h.update hget ((hiff _).2 ?_)
        split
        · exact mem_insertChildren hnew hrest
        · exact hrest

/-- **`RepeatSplice` keeps the tree conforming**: both nodes have the same repeat symbol, so
children of the one may be children of the other.  -/
theorem repeatSplice_spec (hg : g.Sound) (h : g.ConformingOf root tree)
    (hothers : ∀ t ∈ interestingTrees, g.ConformingOf root t) :
    Spec (g.repeatSplice mutationFalloff (g.getMutationCandidates mutationFalloff tree none maxDepth true)
      interestingTrees tree) (fun result => g.ConformingOf root result.1) (· ≠ .undefined) := by
  rw [repeatSplice_eq]
  refine selectSplice_spec (fun _ he => he) h fun candidate name children other otherCandidate hsel => ?_
  obtain ⟨name', children', hget, -, -, hrepeat⟩ := mem_getMutationCandidates hsel.select.mem
  cases hget.symm.trans hsel.node
  obtain ⟨symbol, r, hsymbol, hrepeat, hr, -⟩ := hg.repeats (hrepeat rfl)
  have hiff := conforming_repeat_iff hsymbol hrepeat hr
  have hchildren := (hiff children).1 ⟨rfl, h.2.get? hget⟩
  obtain ⟨hmem, -, otherChildren, hget'⟩ := hsel.otherNode
  have hother := (hiff otherChildren).1 ⟨rfl, (hothers other hmem).2.get? hget'⟩
  rw [spliceChildren, symbolNodeAt_eq hget', pure_bind]
  refine (mutatePosition_spec children).bind fun position _ => ?_
  refine (mutatePosition_spec otherChildren).bind fun otherPosition _ => ?_
  refine (Spec.defined spec_rand).bind fun draw _ => ?_
  refine (deleteChildren_spec _ position hchildren).bind fun rest hrest => ?_
  have hdrop : ∀ c ∈ otherChildren.drop otherPosition, g.ConformingOf r c :=
    fun c hc => hother c (List.mem_of_mem_drop hc)
  refine (copyLoop_spec hdrop).bind fun copies hcopies => Spec.pure ?_
  exact h.update hget ((hiff _).2 (mem_insertChildren hcopies hrest))

/-- **Every mutator keeps the tree conforming**, if the interesting trees are.  Each of the
four has its own proof, and which of them is called is what was drawn.  -/
theorem applyMutation_spec (hg : g.Sound) (h : g.ConformingOf root tree)
    (hothers : ∀ t ∈ interestingTrees, g.ConformingOf root t) (mutation : Mutation) :
    Spec (g.applyMutation mutationFalloff interestingTrees tree mutation)
      (fun result => g.ConformingOf root result.1) (· ≠ .undefined) := by
  cases mutation with
  | replaceNode => exact replaceNode_spec hg h (areNodes_getMutationCandidates false)
  | splice => exact splice_spec h hothers
  | repeatMutator => exact repeatMutator_spec hg h (areNodes_getMutationCandidates true)
  | repeatSplice => exact repeatSplice_spec hg h hothers

/-- **Any sequence of mutators** keeps the tree conforming, whichever of them are called,
with whatever draws, and with the interesting trees of the moment.  -/
theorem conforming_of_run {calls : List MutationCall} {newTree : TreeNode} (hg : g.Sound)
    (h : g.ConformingOf root tree)
    (hothers : ∀ call ∈ calls, ∀ t ∈ call.interestingTrees, g.ConformingOf root t)
    (hrun : Run (g.MutationStep mutationFalloff) tree calls newTree) : g.ConformingOf root newTree := by
  refine hrun.invariant_of (fun call => ∀ t ∈ call.interestingTrees, g.ConformingOf root t)
    (fun _ t => g.ConformingOf root t) hothers h ?_
  rintro _ t call u ht hcall ⟨success, rest, hstep⟩
  exact (applyMutation_spec hg ht hcall call.mutation).of_ok hstep

/-- **However many mutators are applied**, the tree stays conforming, also if the
interesting trees change in between, as other threads may add to them while this one
mutates.  -/
theorem mutateRounds_spec {interestingTrees : ℕ → List TreeNode} (hg : g.Sound)
    (hothers : ∀ i, ∀ t ∈ interestingTrees i, g.ConformingOf root t) (rounds : ℕ)
    (h : g.ConformingOf root tree) :
    Spec (g.mutateRounds mutationFalloff interestingTrees rounds tree) (g.ConformingOf root)
      (· ≠ .undefined) := by
  induction rounds generalizing tree with
  | zero => exact Spec.pure h
  | succ rounds ih =>
      rw [mutateRounds]
      refine (Spec.defined spec_rand).bind fun select _ => ?_
      refine (applyMutation_spec hg h (hothers rounds) _).bind ?_
      rintro ⟨newTree, success⟩ hnew
      dsimp only
      split
      · refine (Spec.defined spec_rand).bind fun draw _ => ?_
        split
        · exact Spec.pure hnew
        · exact ih hnew
      · exact ih hnew

/-- **`Mutate` encodes a conforming tree.** It copies the tree of the context, applies one
mutator or more to the copy, and gives up rather than to encode something else.  -/
theorem mutateTree_spec {interestingTrees : ℕ → List TreeNode} (hg : g.Sound)
    (hothers : ∀ i, ∀ t ∈ interestingTrees i, g.ConformingOf (str "root") t)
    (h : g.ConformingOf (str "root") tree) :
    Spec (g.mutateTree mutationFalloff interestingTrees tree) (g.ConformingOf (str "root"))
      (· ≠ .undefined) := by
  refine (Spec.defined spec_rand).bind fun select _ => ?_
  have hnew : Spec (g.generateNew select) (OrNull (g.ConformingOf (str "root"))) (· ≠ .undefined) := by
    rw [generateNew]
    split
    · exact Spec.defined (generateTreeNamed_spec hg _)
    · exact Spec.pure (orNull_none _)
  refine hnew.bind fun result hresult => ?_
  cases result with
  | none => exact mutateRounds_spec hg hothers 100 h
  | some generated => exact Spec.pure (hresult generated rfl)

/-! ### Evaluated runs -/

/-- What an evaluated step is a step to.  The evaluation gives a Boolean, and the tree that
it was about satisfies the property which was evaluated.  -/
theorem exists_mutationStep (g : Grammar) (mutationFalloff : F) (tree : TreeNode) (call : MutationCall)
    (p : TreeNode → Bool)
    (h : ((g.applyMutation mutationFalloff call.interestingTrees tree call.mutation call.draws).toOption.any
      fun result => p result.1.1) = true) :
    ∃ newTree, g.MutationStep mutationFalloff tree call newTree ∧ p newTree = true := by
  obtain ⟨⟨⟨newTree, success⟩, rest⟩, hresult, hp⟩ := (Option.any_eq_true _ _).1 h
  refine ⟨newTree, ⟨success, rest, ?_⟩, hp⟩
  rcases happly : g.applyMutation mutationFalloff call.interestingTrees tree call.mutation call.draws with
    e | result
  · rw [happly] at hresult
    cases hresult
  · rw [happly] at hresult
    cases hresult
    rfl

/-- Does the tree that these mutators leave, one after the other, pass the test? -/
def leaves (g : Grammar) (mutationFalloff : F) (p : TreeNode → Bool) : List MutationCall → TreeNode → Bool
  | [], tree => p tree
  | call :: calls, tree =>
      (g.applyMutation mutationFalloff call.interestingTrees tree call.mutation call.draws).toOption.any
        fun result => g.leaves mutationFalloff p calls result.1.1

/-- What an evaluated run is a run to.  The trees in between are not written out: a tree is
found by what can be tested of it. -/
theorem exists_mutationRun (g : Grammar) (mutationFalloff : F) (p : TreeNode → Bool)
    (calls : List MutationCall) (tree : TreeNode) (h : g.leaves mutationFalloff p calls tree = true) :
    ∃ newTree, Run (g.MutationStep mutationFalloff) tree calls newTree ∧ p newTree = true := by
  induction calls generalizing tree with
  | nil => exact ⟨tree, Run.refl, h⟩
  | cons call calls ih =>
      obtain ⟨between, hstep, hleaves⟩ := g.exists_mutationStep mutationFalloff tree call _ h
      obtain ⟨newTree, hrun, hp⟩ := ih between hleaves
      exact ⟨newTree, Run.cons hstep hrun, hp⟩

end Grammar
end Jackalope
