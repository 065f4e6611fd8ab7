/-
# The grammar minimizer

`GrammarMinimizer` of `mutators/grammar/grammarminimizer.cpp`.  A pointer to a node of
the tree is the path to it.  A candidate is a node that may lose children: a repeat
node may lose any, a node whose symbol has an empty rule may lose all.

The candidates are listed parents first and are gone through from the last to the
first, so no change is made above a candidate that is still to come, and the paths
to these stay valid (`Valid.setChildren`).
-/

import Jackalope.Grammar.Mutator

namespace Jackalope
namespace Grammar

open Foundation

/-- `GrammarMinimizerContext`.  `none` in `currentCandidate` is `(size_t)-1`. -/
structure MinimizerContext where
  tree : TreeNode
  minimizationCandidates : List (List ℕ)
  removedChildren : List TreeNode
  currentCandidate : Option ℕ
  currentCandidatePos : ℕ
  numModesInitial : UInt64
  numModesRemoved : UInt64

/-- The nodes that `GetMinimizationCandidates` pushes. -/
def isMinimizable (g : Grammar) : NodeData → ℕ → Bool
  | .string _, _ => false
  | .symbol name, nchildren =>
      (g.getSymbol name).any (fun symbol => symbol.canBeEmpty || symbol.isRepeat) && nchildren ≠ 0

/-- The nodes that it does not go into. -/
def isString : NodeData → Bool
  | .string _ => true
  | .symbol _ => false

/-- `GetMinimizationCandidates`. -/
def getMinimizationCandidates (g : Grammar) (tree : TreeNode) : List (List ℕ) :=
  (Foundation.Tree.list (fun data _ => isString data) g.isMinimizable tree 0).map Prod.fst

/-- `context->minimization_candidates[k]->children.size()`. -/
def childrenSize (tree : TreeNode) (candidates : List (List ℕ)) (k : ℕ) : ℕ :=
  match (candidates[k]?).bind tree.get? with
  | some node => node.children.length
  | none => 0

/-- `CreateContext`, for the tree that `DecodeSample` gives. -/
def createContext (g : Grammar) (tree : TreeNode) : MinimizerContext :=
  let candidates := g.getMinimizationCandidates tree
  let currentCandidate := if candidates.length = 0 then none else some (candidates.length - 1)
  { tree
    minimizationCandidates := candidates
    removedChildren := []
    currentCandidate
    currentCandidatePos := (currentCandidate.map (childrenSize tree candidates)).getD 0
    numModesInitial := UInt64.ofNat tree.numNodes
    numModesRemoved := 0 }

/-- The path, the symbol and the children of the node `minimization_candidates[k]`. -/
def candidateNode (g : Grammar) (ctx : MinimizerContext) (k : ℕ) :
    Except Stop (List ℕ × Symbol × List TreeNode) :=
  match ctx.minimizationCandidates[k]? with
  | none => .error .undefined
  | some path =>
      match ctx.tree.get? path with
      | some (.node (.symbol name) children) =>
          match g.getSymbol name with
          | some symbol => .ok (path, symbol, children)
          | none => .error .undefined
      | _ => .error .undefined

/-- The loop of `MinimizeStep` that goes back to a candidate with a child to remove. -/
def findCandidate (g : Grammar) (ctx : MinimizerContext) :
    ℕ → ℕ → Except Stop (Option (ℕ × ℕ))
  | k, pos + 1 => .ok (some (k, pos + 1))
  | 0, 0 => .ok none
  | k + 1, 0 => do
      let (_, _, children) ← g.candidateNode ctx k
      g.findCandidate ctx k children.length

/-- The part of `MinimizeStep` that removes children of the candidate `k`. -/
def removeChildren (g : Grammar) (ctx : MinimizerContext) (k pos : ℕ) :
    Except Stop MinimizerContext := do
  let (path, symbol, children) ← g.candidateNode ctx k
  if symbol.isRepeat then
    match children[pos - 1]? with
    | some child =>
        .ok { ctx with
          tree := Foundation.Tree.update (setChildren (children.eraseIdx (pos - 1))) path ctx.tree
          removedChildren := [child]
          currentCandidate := some k
          currentCandidatePos := pos - 1 }
    | none => .error .undefined
  else if symbol.canBeEmpty then
    .ok { ctx with
      tree := Foundation.Tree.update (setChildren []) path ctx.tree
      removedChildren := children
      currentCandidate := some k
      currentCandidatePos := 0 }
  else
    .ok { ctx with removedChildren := [], currentCandidate := some k, currentCandidatePos := pos }

/-- `MinimizeStep`: the context, and what is returned.  If this is 1, the sample is the
encoded tree. -/
def minimizeStep (g : Grammar) (minimizationLimit : UInt64) (ctx : MinimizerContext) :
    Except Stop (MinimizerContext × Bool) :=
  if ctx.numModesInitial - ctx.numModesRemoved ≤ minimizationLimit then .ok (ctx, false)
  else
    match ctx.currentCandidate with
    | none => .ok (ctx, false)
    | some current => do
        match ← g.findCandidate ctx current ctx.currentCandidatePos with
        | none => .ok ({ ctx with currentCandidate := none, currentCandidatePos := 0 }, false)
        | some (k, pos) =>
            let ctx ← g.removeChildren ctx k pos
            .ok (ctx, true)

/-- `ReportSuccess`. -/
def reportSuccess (ctx : MinimizerContext) : MinimizerContext :=
  { ctx with
    numModesRemoved := ctx.removedChildren.foldl
      (fun removed child => removed + UInt64.ofNat child.numNodes) ctx.numModesRemoved
    removedChildren := [] }

/-- `ReportFail`. -/
def reportFail (g : Grammar) (ctx : MinimizerContext) : Except Stop MinimizerContext :=
  match ctx.currentCandidate with
  | none => .error .undefined
  | some k => do
      let (path, _, children) ← g.candidateNode ctx k
      if children.length < ctx.currentCandidatePos then .error .undefined
      else
        .ok { ctx with
          tree := Foundation.Tree.update (setChildren (children.take ctx.currentCandidatePos ++
            ctx.removedChildren ++ children.drop ctx.currentCandidatePos)) path ctx.tree
          removedChildren := [] }

/-- A step, and the report on the sample that it presents. -/
def MinimizerRound (g : Grammar) (minimizationLimit : UInt64) (ctx : MinimizerContext)
    (accepted : Bool) (ctx' : MinimizerContext) : Prop :=
  ∃ presented, g.minimizeStep minimizationLimit ctx = .ok (presented, true) ∧
    if accepted then ctx' = reportSuccess presented else g.reportFail presented = .ok ctx'

/-! ### Candidates that are still to come -/

variable {g : Grammar} {name : Bytes} {ctx ctx' : MinimizerContext} {tree : TreeNode}
  {path : List ℕ} {children kept : List TreeNode} {k : ℕ}

/-- The candidate `k` is in the tree, with these children, and may lose some. -/
structure CandidateAt (g : Grammar) (ctx : MinimizerContext) (k : ℕ) (path : List ℕ)
    (name : Bytes) (children : List TreeNode) : Prop where
  candidate : ctx.minimizationCandidates[k]? = some path
  node : ctx.tree.get? path = some (.node (.symbol name) children)
  minimizable : ∃ symbol, g.getSymbol name = some symbol ∧
    (symbol.canBeEmpty = true ∨ symbol.isRepeat = true)

/-- The current candidate and those before it are in the tree, and the position is one
among the children of the current one. -/
structure MinimizerContext.Valid (g : Grammar) (ctx : MinimizerContext) : Prop where
  parentsFirst : ctx.minimizationCandidates.Pairwise fun x y => ¬ y <+: x
  candidates : ∀ current, ctx.currentCandidate = some current → ∀ k ≤ current,
    ∃ path name children, CandidateAt g ctx k path name children
  position : ∀ current path name children, ctx.currentCandidate = some current →
    CandidateAt g ctx current path name children → ctx.currentCandidatePos ≤ children.length

/-- The pointer of a candidate leads to its node, whose symbol has an entry in the grammar.
-/
theorem candidateNode_eq {symbol : Symbol} (h : CandidateAt g ctx k path name children)
    (hsymbol : g.getSymbol name = some symbol) :
    g.candidateNode ctx k = .ok (path, symbol, children) := by
  rw [candidateNode, h.candidate]
  dsimp only
  rw [h.node]
  dsimp only
  rw [hsymbol]

/-- A candidate is one node, with one symbol and its children, so what two lemmas say of it
they say of the same node.  -/
theorem CandidateAt.unique {path' : List ℕ} {name' : Bytes} {children' : List TreeNode}
    (h : CandidateAt g ctx k path name children) (h' : CandidateAt g ctx k path' name' children') :
    path = path' ∧ name = name' ∧ children = children' := by
  obtain rfl := Option.some.inj (h.candidate.symm.trans h'.candidate)
  have hnode := Option.some.inj (h.node.symm.trans h'.node)
  injection hnode with hlabel hchildren
  injection hlabel with hname
  exact ⟨rfl, hname, hchildren⟩

/-- Only the tree and the list of candidates matter; the current candidate, the position and
the counters may be others.  -/
theorem CandidateAt.congr (h : CandidateAt g ctx k path name children)
    (htree : ctx'.tree = ctx.tree)
    (hlist : ctx'.minimizationCandidates = ctx.minimizationCandidates) :
    CandidateAt g ctx' k path name children where
  candidate := by
    rw [hlist]
    exact h.candidate
  node := by
    rw [htree]
    exact h.node
  minimizable := h.minimizable

/-- Earlier candidates are not below later ones. -/
theorem MinimizerContext.Valid.not_below {j : ℕ} {path' : List ℕ} (h : ctx.Valid g) (hjk : j < k)
    (hj : ctx.minimizationCandidates[j]? = some path')
    (hk : ctx.minimizationCandidates[k]? = some path) : ¬ path <+: path' := by
  obtain ⟨hjlt, rfl⟩ := List.getElem?_eq_some_iff.1 hj
  obtain ⟨hklt, rfl⟩ := List.getElem?_eq_some_iff.1 hk
  exact List.pairwise_iff_getElem.1 h.parentsFirst j k hjlt hklt hjk

/-- **New children for a candidate** leave the candidates before it where they are, with as
many children: parents come first in the list, so the path to an earlier candidate does not
lead through the later one.  -/
theorem MinimizerContext.Valid.before {j : ℕ} {path' : List ℕ} {name' : Bytes}
    {children' : List TreeNode} (h : ctx.Valid g) (hjk : j < k)
    (hj : CandidateAt g ctx j path' name' children') (hk : CandidateAt g ctx k path name children)
    (htree : ctx'.tree = Foundation.Tree.update (setChildren kept) path ctx.tree)
    (hlist : ctx'.minimizationCandidates = ctx.minimizationCandidates) :
    ∃ children'', CandidateAt g ctx' j path' name' children'' ∧
      children''.length = children'.length := by
  obtain ⟨⟨data, children''⟩, hget, hlabel, hlength⟩ :=
    Foundation.Tree.get?_update_of_not_prefix (f := setChildren kept) hk.node hj.node
      (h.not_below hjk hj.candidate hk.candidate)
  cases hlabel
  refine ⟨children'', ⟨?_, ?_, hj.minimizable⟩, hlength⟩
  · rw [hlist]
    exact hj.candidate
  · rw [htree]
    exact hget

/-- **New children for the candidate that becomes the current one** keep the context valid.
The position is moved along, so it stays within the children that are left.  -/
theorem MinimizerContext.Valid.setChildren {current : ℕ} (h : ctx.Valid g)
    (hcurrent : ctx.currentCandidate = some current) (hle : k ≤ current)
    (hk : CandidateAt g ctx k path name children)
    (htree : ctx'.tree = Foundation.Tree.update (Grammar.setChildren kept) path ctx.tree)
    (hlist : ctx'.minimizationCandidates = ctx.minimizationCandidates)
    (hcurrent' : ctx'.currentCandidate = some k) (hpos : ctx'.currentCandidatePos ≤ kept.length) :
    ctx'.Valid g ∧ CandidateAt g ctx' k path name kept := by
  have hnew : CandidateAt g ctx' k path name kept := by
    refine ⟨by rw [hlist]; exact hk.candidate, ?_, hk.minimizable⟩
    rw [htree]
    exact Foundation.Tree.get?_update hk.node
  refine ⟨⟨by rw [hlist]; exact h.parentsFirst, ?_, ?_⟩, hnew⟩
  · intro current' hc j hj
    obtain rfl := Option.some.inj (hcurrent'.symm.trans hc)
    rcases Nat.lt_or_eq_of_le hj with hlt | rfl
    · obtain ⟨path', name', children', hj'⟩ := h.candidates current hcurrent j (hj.trans hle)
      obtain ⟨children'', hat, -⟩ := h.before hlt hj' hk htree hlist
      exact ⟨path', name', children'', hat⟩
    · exact ⟨path, name, kept, hnew⟩
  · intro current' path' name' children' hc hat
    obtain rfl := Option.some.inj (hcurrent'.symm.trans hc)
    obtain ⟨-, -, rfl⟩ := hnew.unique hat
    exact hpos

/-! ### `CreateContext` -/

/-- **What the search finds** are nodes of the tree that may lose something: their symbol
has an empty rule, or is a repeat symbol.  -/
theorem candidateAt_of_mem (hpath : path ∈ g.getMinimizationCandidates tree) :
    ∃ name children symbol, tree.get? path = some (.node (.symbol name) children) ∧
      g.getSymbol name = some symbol ∧ (symbol.canBeEmpty = true ∨ symbol.isRepeat = true) := by
  obtain ⟨⟨path', depth⟩, hmem, rfl⟩ := List.mem_map.1 hpath
  obtain ⟨⟨data, children⟩, hget, -, hkeep⟩ := Foundation.Tree.get?_of_mem_list hmem
  cases data with
  | string value => cases hkeep
  | symbol name =>
      obtain ⟨hany, -⟩ := Bool.and_eq_true_iff.1 hkeep
      obtain ⟨symbol, hsymbol, hor⟩ := (Option.any_eq_true _ _).1 hany
      exact ⟨name, children, symbol, hget, hsymbol, Bool.or_eq_true_iff.1 hor⟩

/-- The context begins valid: all candidates are nodes of the tree, parents before their
descendants, and nothing was removed from it yet.  -/
theorem valid_createContext (g : Grammar) (tree : TreeNode) : (g.createContext tree).Valid g where
  parentsFirst := List.pairwise_map.2 (Foundation.Tree.list_pairwise tree 0)
  candidates current hcurrent k hk := by
    rw [createContext] at hcurrent
    dsimp only at hcurrent
    split at hcurrent
    · cases hcurrent
    · rename_i hne
      cases hcurrent
      have hlt : k < (g.getMinimizationCandidates tree).length := by omega
      obtain ⟨name, children, symbol, hget, hsymbol, hor⟩ :=
        candidateAt_of_mem (List.getElem_mem hlt)
      exact ⟨_, name, children, List.getElem?_eq_getElem hlt, hget, symbol, hsymbol, hor⟩
  position current path name children hcurrent hat := by
    have hsize : childrenSize tree (g.getMinimizationCandidates tree) current = children.length := by
      have hpath : (g.getMinimizationCandidates tree)[current]? = some path := hat.candidate
      have hnode : tree.get? path = some (.node (.symbol name) children) := hat.node
      rw [childrenSize, hpath, Option.bind_some, hnode]
      rfl
    rw [createContext] at hcurrent ⊢
    dsimp only at hcurrent ⊢
    rw [hcurrent, Option.map_some, Option.getD_some, hsize]

/-! ### What a step does -/

/-- **The candidate that is found** is the current one or an earlier one, and it has a child
before the position: the position that there is, or all its children. -/
theorem findCandidate_spec {current pos : ℕ} (h : ctx.Valid g)
    (hcurrent : ctx.currentCandidate = some current) (hk : k ≤ current)
    (hat : CandidateAt g ctx k path name children) (hpos : pos ≤ children.length) :
    g.findCandidate ctx k pos = .ok none ∨
      ∃ k' pos' path' name' children', g.findCandidate ctx k pos = .ok (some (k', pos')) ∧
        CandidateAt g ctx k' path' name' children' ∧ 0 < pos' ∧ pos' ≤ children'.length ∧
        (k' = k ∧ pos' = pos ∨ k' < k ∧ pos' = children'.length) := by
  induction k generalizing pos path name children with
  | zero =>
      cases pos with
      | zero => exact Or.inl rfl
      | succ pos =>
          exact Or.inr ⟨0, pos + 1, path, name, children, rfl, hat, Nat.succ_pos pos, hpos,
            Or.inl ⟨rfl, rfl⟩⟩
  | succ k ih =>
      cases pos with
      | zero =>
          obtain ⟨path', name', children', hat'⟩ := h.candidates current hcurrent k (by omega)
          obtain ⟨symbol, hsymbol, -⟩ := hat'.minimizable
          have hunfold : g.findCandidate ctx (k + 1) 0 = g.findCandidate ctx k children'.length := by
            rw [findCandidate, candidateNode_eq hat' hsymbol]
            rfl
          rw [hunfold]
          rcases ih (by omega) hat' le_rfl with hnone | ⟨k', pos', path'', name'', children'', hfound,
            hat'', hpos', hle', ⟨rfl, rfl⟩ | ⟨hlt, heq⟩⟩
          · exact Or.inl hnone
          · obtain ⟨-, -, rfl⟩ := hat''.unique hat'
            exact Or.inr ⟨k', _, path'', name'', _, hfound, hat'', hpos', hle',
              Or.inr ⟨Nat.lt_succ_self k', rfl⟩⟩
          · exact Or.inr ⟨k', pos', path'', name'', children'', hfound, hat'', hpos', hle',
              Or.inr ⟨by omega, heq⟩⟩
      | succ pos =>
          exact Or.inr ⟨k + 1, pos + 1, path, name, children, rfl, hat, Nat.succ_pos pos, hpos,
            Or.inl ⟨rfl, rfl⟩⟩

/-- A list with an entry taken out and put back. -/
theorem eraseIdx_insert {α : Type} {l : List α} {i : ℕ} {a : α} (h : l[i]? = some a) :
    (l.eraseIdx i).take i ++ [a] ++ (l.eraseIdx i).drop i = l := by
  obtain ⟨hi, rfl⟩ := List.getElem?_eq_some_iff.1 h
  have hlength : (l.take i).length = i := by
    rw [List.length_take]
    omega
  rw [List.eraseIdx_eq_take_drop_succ, List.take_left' hlength, List.drop_left' hlength,
    List.append_assoc, List.singleton_append, ← List.drop_eq_getElem_cons hi, List.take_append_drop]

/-- What `MinimizeStep` does when it returns 1: the node at `path`, the candidate `k` with
`pos` children before the position, keeps the children `kept`.  The children that are
removed belong at the new position. -/
structure Removal (g : Grammar) (ctx ctx' : MinimizerContext) (k pos : ℕ) (path : List ℕ)
    (name : Bytes) (children kept : List TreeNode) : Prop where
  candidate : CandidateAt g ctx k path name children
  tree : ctx'.tree = Foundation.Tree.update (setChildren kept) path ctx.tree
  candidates : ctx'.minimizationCandidates = ctx.minimizationCandidates
  current : ctx'.currentCandidate = some k
  initial : ctx'.numModesInitial = ctx.numModesInitial
  removed : ctx'.numModesRemoved = ctx.numModesRemoved
  position : ctx'.currentCandidatePos ≤ kept.length
  advances : ctx'.currentCandidatePos < pos
  undo : kept.take ctx'.currentCandidatePos ++ ctx'.removedChildren ++
    kept.drop ctx'.currentCandidatePos = children
  nonempty : ctx'.removedChildren ≠ []
  kind : ∃ symbol, g.getSymbol name = some symbol ∧
    (symbol.isRepeat = true ∧ kept ⊆ children ∨
      symbol.isRepeat = false ∧ symbol.canBeEmpty = true ∧ kept = [])

/-- **Removing children** of a candidate that has some before the position: a repeat node
loses the last one before it, a node that can be empty loses all of them, any other node
none.  What is removed is remembered, and nothing undefined is done.  -/
theorem removeChildren_spec {pos : ℕ} (hat : CandidateAt g ctx k path name children)
    (hpos : 0 < pos) (hle : pos ≤ children.length) :
    ∃ ctx' kept, g.removeChildren ctx k pos = .ok ctx' ∧
      Removal g ctx ctx' k pos path name children kept := by
  obtain ⟨symbol, hsymbol, hminimizable⟩ := hat.minimizable
  rw [removeChildren, candidateNode_eq hat hsymbol]
  simp only [bind, Except.bind]
  by_cases hrepeat : symbol.isRepeat = true
  · have hlt : pos - 1 < children.length := by omega
    have hget : children[pos - 1]? = some children[pos - 1] := List.getElem?_eq_getElem hlt
    rw [if_pos hrepeat, hget]
    refine ⟨_, children.eraseIdx (pos - 1), rfl, hat, rfl, rfl, rfl, rfl, rfl, ?_, ?_,
      eraseIdx_insert hget, List.cons_ne_nil _ _, symbol, hsymbol,
      Or.inl ⟨hrepeat, fun c hc => List.mem_of_mem_eraseIdx hc⟩⟩
    · show pos - 1 ≤ _
      rw [List.length_eraseIdx_of_lt hlt]
      omega
    · show pos - 1 < pos
      omega
  · have hempty := hminimizable.resolve_right hrepeat
    rw [if_neg hrepeat, if_pos hempty]
    refine ⟨_, [], rfl, hat, rfl, rfl, rfl, rfl, rfl, Nat.zero_le _, hpos, ?_, ?_, symbol, hsymbol,
      Or.inr ⟨Bool.not_eq_true _ ▸ hrepeat, hempty, rfl⟩⟩
    · rw [List.take_nil, List.drop_nil, List.nil_append, List.append_nil]
    · show children ≠ []
      intro hnil
      rw [hnil, List.length_nil] at hle
      omega

/-- **What `MinimizeStep` does**: it returns 0 and changes no node, or it removes children
of the current candidate or an earlier one. -/
theorem minimizeStep_cases (minimizationLimit : UInt64) (h : ctx.Valid g) :
    (∃ ctx', g.minimizeStep minimizationLimit ctx = .ok (ctx', false) ∧ ctx'.tree = ctx.tree ∧
      ctx'.Valid g) ∨
    ∃ ctx' current k pos path name children kept,
      g.minimizeStep minimizationLimit ctx = .ok (ctx', true) ∧
      ctx.currentCandidate = some current ∧
      Removal g ctx ctx' k pos path name children kept ∧
      (k = current ∧ pos = ctx.currentCandidatePos ∨ k < current ∧ pos = children.length) := by
  rw [minimizeStep]
  split
  · exact Or.inl ⟨ctx, rfl, rfl, h⟩
  split
  · exact Or.inl ⟨ctx, rfl, rfl, h⟩
  · rename_i current hcurrent
    obtain ⟨path, name, children, hat⟩ := h.candidates current hcurrent current le_rfl
    have hpos := h.position current path name children hcurrent hat
    rcases findCandidate_spec h hcurrent le_rfl hat hpos with hnone | ⟨k, pos, path', name',
      children', hfound, hat', hpos', hle', hwhich⟩
    · rw [hnone]
      refine Or.inl ⟨_, rfl, rfl, h.parentsFirst, fun c hc => ?_, fun c _ _ _ hc => ?_⟩
      · cases hc
      · cases hc
    · obtain ⟨ctx', kept, hremove, hremoval⟩ := removeChildren_spec hat' hpos' hle'
      rw [hfound]
      simp only [bind, Except.bind]
      rw [hremove]
      exact Or.inr ⟨ctx', current, k, pos, path', name', children', kept, rfl, hcurrent, hremoval,
        hwhich⟩

variable {pos : ℕ}

/-- After a step the context is valid, and the candidate has the children that it keeps. -/
theorem Removal.valid {current : ℕ} (hr : Removal g ctx ctx' k pos path name children kept)
    (h : ctx.Valid g) (hcurrent : ctx.currentCandidate = some current) (hle : k ≤ current) :
    ctx'.Valid g ∧ CandidateAt g ctx' k path name kept :=
  h.setChildren hcurrent hle hr.candidate hr.tree hr.candidates hr.current hr.position

/-- Of two assignments of the children the last one counts.  -/
theorem setChildren_setChildren (cs cs' : List TreeNode) :
    setChildren cs ∘ setChildren cs' = setChildren cs := by
  funext t
  obtain ⟨data, children⟩ := t
  rfl

/-- **`ReportFail` undoes the step**: the removed children are put back where they were, so
the tree is what it was, and the position is not: the step is not tried again.  -/
theorem Removal.reportFail {current : ℕ} (hr : Removal g ctx ctx' k pos path name children kept)
    (h : ctx.Valid g) (hcurrent : ctx.currentCandidate = some current) (hle : k ≤ current) :
    g.reportFail ctx' = .ok { ctx' with tree := ctx.tree, removedChildren := [] } := by
  obtain ⟨-, hat⟩ := hr.valid h hcurrent hle
  obtain ⟨symbol, hsymbol, -⟩ := hat.minimizable
  have hpos := hr.position
  have htree : Foundation.Tree.update (setChildren children) path ctx'.tree = ctx.tree := by
    rw [hr.tree, Foundation.Tree.update_update, setChildren_setChildren]
    exact Foundation.Tree.update_eq_self hr.candidate.node rfl
  rw [Grammar.reportFail, hr.current]
  dsimp only
  rw [candidateNode_eq hat hsymbol]
  simp only [bind, Except.bind]
  rw [if_neg (by omega), hr.undo, htree]

/-- The context after `ReportFail`. -/
def MinimizerContext.undone (presented ctx : MinimizerContext) : MinimizerContext :=
  { presented with tree := ctx.tree, removedChildren := [] }

/-- **Undoing a step keeps the context valid**, with the cursor at the candidate of the step
and the number of modes as it was.  -/
theorem Removal.valid_undone {current : ℕ}
    (hr : Removal g ctx ctx' k pos path name children kept) (h : ctx.Valid g)
    (hcurrent : ctx.currentCandidate = some current) (hle : k ≤ current)
    (hpos : pos ≤ children.length) : (ctx'.undone ctx).Valid g where
  parentsFirst := by
    show ctx'.minimizationCandidates.Pairwise _
    rw [hr.candidates]
    exact h.parentsFirst
  candidates current' hcurrent' j hj := by
    obtain rfl := Option.some.inj (hr.current.symm.trans hcurrent')
    obtain ⟨path', name', children', hj'⟩ := h.candidates current hcurrent j (hj.trans hle)
    exact ⟨path', name', children', hj'.congr rfl hr.candidates⟩
  position current' path' name' children' hcurrent' hat := by
    obtain rfl := Option.some.inj (hr.current.symm.trans hcurrent')
    obtain ⟨-, -, rfl⟩ := hr.candidate.unique (hat.congr rfl hr.candidates.symm)
    exact hr.advances.le.trans hpos

/-- `ReportSuccess` leaves the tree and the candidates alone. -/
theorem MinimizerContext.Valid.reportSuccess (h : ctx.Valid g) : (reportSuccess ctx).Valid g where
  parentsFirst := h.parentsFirst
  candidates current hcurrent j hj := by
    obtain ⟨path, name, children, hat⟩ := h.candidates current hcurrent j hj
    exact ⟨path, name, children, hat.congr rfl rfl⟩
  position current path name children hcurrent hat :=
    h.position current path name children hcurrent (hat.congr rfl rfl)

/-- **What a round does**: it removes children, and keeps that or undoes it.  The context is
valid when the sample is presented and after the report. -/
theorem round_cases {minimizationLimit : UInt64} {accepted : Bool} (h : ctx.Valid g)
    (hround : g.MinimizerRound minimizationLimit ctx accepted ctx') :
    ∃ presented current k pos path name children kept,
      ctx.currentCandidate = some current ∧
      Removal g ctx presented k pos path name children kept ∧
      (k = current ∧ pos = ctx.currentCandidatePos ∨ k < current ∧ pos = children.length) ∧
      presented.Valid g ∧ ctx'.Valid g ∧
      ctx' = if accepted then reportSuccess presented else presented.undone ctx := by
  obtain ⟨presented, hstep, hreport⟩ := hround
  rcases minimizeStep_cases minimizationLimit h with ⟨_, hstep', -, -⟩ | ⟨_, current, k, pos, path,
    name, children, kept, hstep', hcurrent, hr, hwhich⟩
  · rw [hstep] at hstep'
    cases hstep'
  · rw [hstep] at hstep'
    cases hstep'
    have hle : k ≤ current := by omega
    have hpos : pos ≤ children.length := by
      rcases hwhich with ⟨rfl, rfl⟩ | ⟨-, rfl⟩
      · exact h.position k path name children hcurrent hr.candidate
      · exact le_rfl
    obtain ⟨hvalid, -⟩ := hr.valid h hcurrent hle
    refine ⟨presented, current, k, pos, path, name, children, kept, hcurrent, hr, hwhich, hvalid, ?_⟩
    cases accepted with
    | true =>
        cases hreport
        exact ⟨hvalid.reportSuccess, rfl⟩
    | false =>
        have hundone := hr.reportFail h hcurrent hle
        obtain rfl := Except.ok.inj (hundone.symm.trans hreport)
        exact ⟨hr.valid_undone h hcurrent hle hpos, rfl⟩

end Grammar
end Jackalope
