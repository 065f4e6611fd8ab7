/-
# The minimizer is an undoable search that ends

`GrammarMinimizer` on any sample that `DecodeSample` accepts, conforming or not, and for
any answers.  Three things are kept between the steps: the candidates that are still to
come are in the tree (`MinimizerContext.Valid`), the counters say how many nodes the
tree has (`MinimizerContext.Counts`), and what is still to be tried (`pending`) gets
less with every step.
-/

import Jackalope.Grammar.Conformity
import Jackalope.Grammar.Decoding

namespace Jackalope
namespace Grammar

open Foundation

variable {g : Grammar} {name : Bytes} {ctx ctx' : MinimizerContext} {tree : TreeNode}
  {path : List ℕ} {children kept : List TreeNode} {k pos : ℕ}

/-! ### Counting nodes -/

/-- The nodes of a list of trees. -/
def sumNodes (trees : List TreeNode) : ℕ := (trees.map Foundation.Tree.numNodes).sum

/-- The nodes of two lists of trees are counted one list after the other.  -/
theorem sumNodes_append (ts us : List TreeNode) : sumNodes (ts ++ us) = sumNodes ts + sumNodes us := by
  rw [sumNodes, List.map_append, List.sum_append]
  rfl

/-- A tree has its root.  -/
theorem numNodes_pos (tree : TreeNode) : 0 < tree.numNodes := by
  obtain ⟨data, children⟩ := tree
  rw [Foundation.Tree.numNodes_node]
  omega

/-- A list with a tree in it has a node.  -/
theorem sumNodes_pos {trees : List TreeNode} (h : trees ≠ []) : 0 < sumNodes trees := by
  obtain ⟨t, ts, rfl⟩ := List.exists_cons_of_ne_nil h
  have hpos := numNodes_pos t
  rw [sumNodes, List.map_cons, List.sum_cons]
  omega

/-- **A step takes the removed nodes out of the tree**, so the nodes that are left and those
that are kept for `ReportFail` are together what there was.  -/
theorem Removal.numNodes (hr : Removal g ctx ctx' k pos path name children kept) :
    ctx'.tree.numNodes + sumNodes ctx'.removedChildren = ctx.tree.numNodes := by
  have hupdate := Foundation.Tree.numNodes_update (f := setChildren kept) hr.candidate.node
  have hundo : sumNodes children = sumNodes kept + sumNodes ctx'.removedChildren := by
    have hkept : sumNodes kept = sumNodes (kept.take ctx'.currentCandidatePos) +
        sumNodes (kept.drop ctx'.currentCandidatePos) := by
      rw [← sumNodes_append, List.take_append_drop]
    rw [← hr.undo, sumNodes_append, sumNodes_append, hkept]
    omega
  rw [← hr.tree, setChildren, Foundation.Tree.numNodes_node, Foundation.Tree.numNodes_node] at hupdate
  unfold sumNodes at hundo ⊢
  omega

/-- The counters give the number of nodes of the tree, and their difference does not
wrap. -/
def MinimizerContext.Counts (ctx : MinimizerContext) : Prop :=
  ctx.numModesInitial.toNat = ctx.numModesRemoved.toNat + ctx.tree.numNodes

/-- `num_modes_removed` after `ReportSuccess` is more by the nodes of the removed children,
as long as a `size_t` holds the sum.  -/
theorem toNat_foldl_numNodes (trees : List TreeNode) (n : UInt64)
    (h : n.toNat + sumNodes trees < 2 ^ 64) :
    (trees.foldl (fun removed child => removed + UInt64.ofNat child.numNodes) n).toNat =
      n.toNat + sumNodes trees := by
  induction trees generalizing n with
  | nil => rfl
  | cons t ts ih =>
      rw [sumNodes, List.map_cons, List.sum_cons, ← sumNodes] at h ⊢
      have hn : (n + UInt64.ofNat t.numNodes).toNat = n.toNat + t.numNodes := by
        rw [UInt64.toNat_add, UInt64.toNat_ofNat']
        omega
      rw [List.foldl_cons, ih _ (by rw [hn]; omega), hn]
      omega

/-- Both reports keep the count: an accepted step has taken its nodes out of the tree, and a
rejected one has put them back, and the number that the context keeps is right in either
case.  -/
theorem Removal.counts (hr : Removal g ctx ctx' k pos path name children kept)
    (h : ctx.Counts) (accepted : Bool) :
    (if accepted then reportSuccess ctx' else ctx'.undone ctx).Counts := by
  have hlt := ctx.numModesInitial.toNat_lt
  have hnodes := hr.numNodes
  rw [MinimizerContext.Counts] at h ⊢
  cases accepted with
  | true =>
      have hfold := toNat_foldl_numNodes ctx'.removedChildren ctx'.numModesRemoved
        (by rw [hr.removed]; omega)
      have hremoved : (reportSuccess ctx').numModesRemoved.toNat =
          ctx'.numModesRemoved.toNat + sumNodes ctx'.removedChildren := hfold
      show ctx'.numModesInitial.toNat = (reportSuccess ctx').numModesRemoved.toNat + ctx'.tree.numNodes
      rw [hremoved, hr.initial, hr.removed]
      omega
  | false =>
      show ctx'.numModesInitial.toNat = ctx'.numModesRemoved.toNat + ctx.tree.numNodes
      rw [hr.initial, hr.removed]
      exact h

/-! ### What is still to be tried -/

/-- The children before the position, and those of the candidates before. -/
def MinimizerContext.pending (ctx : MinimizerContext) : ℕ :=
  match ctx.currentCandidate with
  | none => 0
  | some current => ctx.currentCandidatePos +
      ((List.range current).map (childrenSize ctx.tree ctx.minimizationCandidates)).sum

/-- The number of children of a candidate, as the loop reads it.  -/
theorem CandidateAt.childrenSize (h : CandidateAt g ctx k path name children) :
    childrenSize ctx.tree ctx.minimizationCandidates k = children.length := by
  rw [Grammar.childrenSize, h.candidate, Option.bind_some, h.node]
  rfl

/-- What is before an earlier candidate is before a later one. -/
theorem sum_range_le (f : ℕ → ℕ) {j k : ℕ} (h : j < k) :
    f j + ((List.range j).map f).sum ≤ ((List.range k).map f).sum := by
  induction k with
  | zero => omega
  | succ k ih =>
      rw [List.range_succ, List.map_append, List.sum_append, List.map_singleton, List.sum_singleton]
      rcases Nat.lt_succ_iff_lt_or_eq.1 h with hlt | rfl
      · have := ih hlt
        omega
      · omega

/-- **With every round less is to be tried.** An accepted step leaves fewer children, a
rejected one leaves fewer positions, and a candidate that is exhausted is not taken again.
-/
theorem round_pending {minimizationLimit : UInt64} {accepted : Bool} (h : ctx.Valid g)
    (hround : g.MinimizerRound minimizationLimit ctx accepted ctx') : ctx'.pending < ctx.pending := by
  obtain ⟨presented, current, k, pos, path, name, children, kept, hcurrent, hr, hwhich, -, -, rfl⟩ :=
    round_cases h hround
  have hle : k ≤ current := by omega
  have hadvances := hr.advances
  -- the candidates before `k` have as many children as before
  have hsame : ∀ j ∈ List.range k,
      childrenSize presented.tree presented.minimizationCandidates j =
        childrenSize ctx.tree ctx.minimizationCandidates j := by
    intro j hj
    have hjk := List.mem_range.1 hj
    obtain ⟨path', name', children', hat⟩ := h.candidates current hcurrent j (by omega)
    obtain ⟨children'', hat', hlength⟩ := h.before hjk hat hr.candidate hr.tree hr.candidates
    rw [hat.childrenSize, hat'.childrenSize, hlength]
  have hctx : pos + ((List.range k).map (childrenSize ctx.tree ctx.minimizationCandidates)).sum ≤
      ctx.pending := by
    rw [MinimizerContext.pending, hcurrent]
    rcases hwhich with ⟨rfl, rfl⟩ | ⟨hlt, rfl⟩
    · exact le_rfl
    · have hsum := sum_range_le (childrenSize ctx.tree ctx.minimizationCandidates) hlt
      rw [hr.candidate.childrenSize] at hsum
      dsimp only
      omega
  cases accepted with
  | true =>
      have hpending : (reportSuccess presented).pending = presented.currentCandidatePos +
          ((List.range k).map (childrenSize presented.tree presented.minimizationCandidates)).sum := by
        rw [MinimizerContext.pending]
        show (match presented.currentCandidate with | none => 0 | some current => _) = _
        rw [hr.current]
        rfl
      rw [if_pos rfl, hpending, List.map_congr_left hsame]
      omega
  | false =>
      have hpending : (presented.undone ctx).pending = presented.currentCandidatePos +
          ((List.range k).map (childrenSize ctx.tree ctx.minimizationCandidates)).sum := by
        rw [MinimizerContext.pending]
        show (match presented.currentCandidate with | none => 0 | some current => _) = _
        rw [hr.current, ← hr.candidates]
        rfl
      rw [if_neg Bool.false_ne_true, hpending]
      omega

/-! ### Runs -/

/-- Each node of a tree takes bytes in a sample, its type at least, so a tree that was read
has no more nodes than the buffer has bytes.  -/
theorem TreeWord.numNodes_le {w : Bytes} (h : TreeWord g w tree) : tree.numNodes ≤ w.length := by
  induction tree using Foundation.Tree.induction generalizing w with
  | h data children ih =>
      cases h with
      | @node w _ words _ hdata _ hwords =>
          have hpos := hdata.length_pos
          have hsum : ∀ {words : List Bytes} {children : List TreeNode},
              (∀ t ∈ children, ∀ {w : Bytes}, TreeWord g w t → t.numNodes ≤ w.length) →
              List.Forall₂ (TreeWord g) words children → sumNodes children ≤ words.flatten.length := by
            intro words children ih hwords
            induction hwords with
            | nil => exact le_rfl
            | @cons word child words children hword _ ihrest =>
                have hfirst := ih child List.mem_cons_self hword
                have hrest := ihrest fun t ht => ih t (List.mem_cons_of_mem _ ht)
                rw [sumNodes] at hrest ⊢
                rw [List.map_cons, List.sum_cons, List.flatten_cons, List.length_append]
                omega
          have hchildren := hsum (fun t ht {w} hw => ih t ht hw) hwords
          rw [sumNodes] at hchildren
          rw [Foundation.Tree.numNodes_node, List.length_append, List.length_append]
          omega

/-- A tree that is decoded has fewer than `2 ^ 64` nodes, since each of them took a byte of
a sample, whose size is a `size_t`. -/
theorem numNodes_lt_of_decode {cache : StringCache} {sample : Sample}
    {s : BinaryRW × StringCache} (h : g.decodeSample cache sample = .ok (tree, s)) :
    tree.numNodes < 2 ^ 64 := by
  have hdesc := describes_sample (g := g) (le_refl (sample.size + 1))
  obtain ⟨w, rest, _, hrest, ⟨text, word, rfl, -, hword⟩, -⟩ :=
    hdesc.sound [] sample.bytes cache tree s sample.size_lt (Nat.lt_succ_self _) h
  have hnodes := hword.numNodes_le
  have hlt := sample.size_lt
  rw [hrest, List.length_append, List.length_append] at hlt
  omega

/-- What holds between the steps. -/
structure MinimizerContext.Settled (g : Grammar) (ctx : MinimizerContext) : Prop where
  valid : ctx.Valid g
  counts : ctx.Counts

/-- The counters begin right, if the number of nodes fits them.  -/
theorem settled_createContext (h : tree.numNodes < 2 ^ 64) :
    (g.createContext tree).Settled g where
  valid := valid_createContext g tree
  counts := by
    show (UInt64.ofNat tree.numNodes).toNat = 0 + tree.numNodes
    rw [UInt64.toNat_ofNat', Nat.mod_eq_of_lt h, Nat.zero_add]

/-- **A round keeps what holds between the steps.** -/
theorem MinimizerContext.Settled.round {minimizationLimit : UInt64} {accepted : Bool}
    (h : ctx.Settled g) (hround : g.MinimizerRound minimizationLimit ctx accepted ctx') :
    ctx'.Settled g := by
  obtain ⟨presented, _, _, _, _, _, _, _, -, hr, -, -, hvalid, rfl⟩ := round_cases h.valid hround
  exact ⟨hvalid, hr.counts h.counts accepted⟩

/-- **A run of the minimizer**: it keeps what holds between the steps, and it has no more
rounds than there was to be tried. -/
theorem settled_of_run {minimizationLimit : UInt64} {answers : List Bool}
    (h : tree.numNodes < 2 ^ 64)
    (hrun : Run (g.MinimizerRound minimizationLimit) (g.createContext tree) answers ctx) :
    ctx.Settled g ∧ answers.length + ctx.pending ≤ (g.createContext tree).pending := by
  refine hrun.invariant (fun answers ctx => ctx.Settled g ∧
    answers.length + ctx.pending ≤ (g.createContext tree).pending)
    ⟨settled_createContext h, by rw [List.length_nil, Nat.zero_add]⟩ ?_
  rintro answers ctx accepted ctx' ⟨hsettled, hlength⟩ hround
  have hless := round_pending hsettled.valid hround
  refine ⟨hsettled.round hround, ?_⟩
  rw [List.length_append, List.length_singleton]
  omega

/-- After a run, the step returns 0, or any answer gives a longer run. -/
theorem step_or_round (minimizationLimit : UInt64) (h : ctx.Valid g) :
    (∃ ctx', g.minimizeStep minimizationLimit ctx = .ok (ctx', false)) ∨
      ∀ accepted, ∃ ctx', g.MinimizerRound minimizationLimit ctx accepted ctx' := by
  rcases minimizeStep_cases minimizationLimit h with ⟨ctx', hstep, -, -⟩ | ⟨presented, current, k, pos,
    path, name, children, kept, hstep, hcurrent, hr, hwhich⟩
  · exact Or.inl ⟨ctx', hstep⟩
  · refine Or.inr fun accepted => ?_
    cases accepted with
    | true => exact ⟨_, presented, hstep, rfl⟩
    | false => exact ⟨_, presented, hstep, hr.reportFail h hcurrent (by omega)⟩

/-- **The minimizer ends** for any answers: there is a number of rounds, for this sequence
of answers, after which `MinimizeStep` has nothing to propose.  The number of nodes is one
that a `size_t` can hold.  -/
theorem minimizer_ends (minimizationLimit : UInt64) (h : tree.numNodes < 2 ^ 64)
    (answers : ℕ → Bool) : ∃ n ctx ctx',
      Run (g.MinimizerRound minimizationLimit) (g.createContext tree)
        ((List.range n).map answers) ctx ∧
      g.minimizeStep minimizationLimit ctx = .ok (ctx', false) := by
  by_contra hnever
  -- otherwise there are runs of every length
  have hruns : ∀ n, ∃ ctx, Run (g.MinimizerRound minimizationLimit) (g.createContext tree)
      ((List.range n).map answers) ctx := by
    intro n
    induction n with
    | zero => exact ⟨_, Run.refl⟩
    | succ n ih =>
        obtain ⟨ctx, hrun⟩ := ih
        rcases step_or_round minimizationLimit (settled_of_run h hrun).1.valid with
          ⟨ctx', hstep⟩ | hround
        · exact absurd ⟨n, ctx, ctx', hrun, hstep⟩ hnever
        · obtain ⟨ctx', hround⟩ := hround (answers n)
          refine ⟨ctx', ?_⟩
          rw [List.range_succ, List.map_append, List.map_singleton]
          exact hrun.snoc hround
  obtain ⟨ctx, hrun⟩ := hruns ((g.createContext tree).pending + 1)
  have hlength := (settled_of_run h hrun).2
  rw [List.length_map, List.length_range] at hlength
  omega

/-- The current candidate is in the tree and the position is one among its children. -/
def MinimizerContext.Addressed (g : Grammar) (ctx : MinimizerContext) : Prop :=
  ∀ k, ctx.currentCandidate = some k → ∃ path name children,
    CandidateAt g ctx k path name children ∧ ctx.currentCandidatePos ≤ children.length

/-- In a valid context every candidate can be followed to its node.  -/
theorem MinimizerContext.Valid.addressed (h : ctx.Valid g) : ctx.Addressed g := fun k hk => by
  obtain ⟨path, name, children, hat⟩ := h.candidates k hk k le_rfl
  exact ⟨path, name, children, hat, h.position k path name children hk hat⟩

/-- **The minimizer is a correct undoable search.**  For a tree that `CreateContext` gets
from a sample and any answers so far: the current candidate is in the tree, and the
position is one among its children; the difference of the counters is the number of
nodes of the tree; the next step is defined, and if it returns 1, the candidate and
position are still such, the tree that it presents has fewer nodes than the last one
accepted, and `ReportFail` gives back that one.  Whatever the answers, a step returns 0
after finitely many. -/
theorem minimizer_search (g : Grammar) (cache : StringCache) (sample : Sample) (tree : TreeNode)
    (s : BinaryRW × StringCache) (minimizationLimit : UInt64)
    (hdecode : g.decodeSample cache sample = .ok (tree, s)) :
    (∀ answers ctx,
      Run (g.MinimizerRound minimizationLimit) (g.createContext tree) answers ctx →
      ctx.Addressed g ∧
      ctx.numModesRemoved.toNat ≤ ctx.numModesInitial.toNat ∧
      (ctx.numModesInitial - ctx.numModesRemoved).toNat = ctx.tree.numNodes ∧
      ∃ presented more, g.minimizeStep minimizationLimit ctx = .ok (presented, more) ∧
        (more = true → presented.Addressed g ∧ presented.tree.numNodes < ctx.tree.numNodes ∧
          ∃ undone, g.reportFail presented = .ok undone ∧ undone.tree = ctx.tree)) ∧
    ∀ answers : ℕ → Bool, ∃ n ctx ctx',
      Run (g.MinimizerRound minimizationLimit) (g.createContext tree)
        ((List.range n).map answers) ctx ∧
      g.minimizeStep minimizationLimit ctx = .ok (ctx', false) := by
  have hnodes := numNodes_lt_of_decode hdecode
  refine ⟨fun answers ctx hrun => ?_, minimizer_ends minimizationLimit hnodes⟩
  obtain ⟨hvalid, hcounts⟩ := (settled_of_run hnodes hrun).1
  rw [MinimizerContext.Counts] at hcounts
  have hle : ctx.numModesRemoved ≤ ctx.numModesInitial := by
    rw [UInt64.le_iff_toNat_le]
    omega
  refine ⟨hvalid.addressed, by omega, ?_, ?_⟩
  · rw [UInt64.toNat_sub_of_le _ _ hle]
    omega
  · rcases minimizeStep_cases minimizationLimit hvalid with ⟨ctx', hstep, -, -⟩ | ⟨presented, current,
      k, pos, path, name, children, kept, hstep, hcurrent, hr, hwhich⟩
    · exact ⟨ctx', false, hstep, fun h => absurd h Bool.false_ne_true⟩
    · refine ⟨presented, true, hstep, fun _ => ?_⟩
      have hpos := sumNodes_pos hr.nonempty
      have hnumNodes := hr.numNodes
      exact ⟨(hr.valid hvalid hcurrent (by omega)).1.addressed, by omega, _,
        hr.reportFail hvalid hcurrent (by omega), rfl⟩

/-- The sample with the tree that `sampleMinimized` is made from. -/
def sampleEncoded : Sample where
  bytes := encoding sampleDerivation
  size_lt := by decide

/-- **A sample that is decoded and minimized**: one step is accepted, and the counters are
those of the tree that is left.  The context is the one that `CreateContext` makes of the
decoded tree, and the removed child is the last one of the repeat node.  -/
theorem minimizer_search_sampleEncoded :
    (∃ s, sampleGrammar.decodeSample StringCache.empty sampleEncoded = .ok (sampleDerivation, s)) ∧
      sampleMinimized.Addressed sampleGrammar ∧
      (sampleMinimized.numModesInitial - sampleMinimized.numModesRemoved).toNat =
        sampleMinimized.tree.numNodes := by
  have hroot : sampleGrammar.Defined (str "root") :=
    ⟨_, List.mem_cons_of_mem _ List.mem_cons_self, rfl⟩
  have hrepeat : sampleGrammar.Defined (str "repeat_root") := ⟨_, List.mem_cons_self, rfl⟩
  have hsymbols : sampleGrammar.UsesSymbols sampleDerivation := by
    unfold UsesSymbols sampleDerivation
    simp [Foundation.Tree.follows_node, NodeData.Known, hroot, hrepeat]
  obtain ⟨cache', hdecode⟩ :=
    @decodeSample_encoding _ StringCache.empty _ sampleEncoded hsymbols rfl
  obtain ⟨haddressed, -, hcount, -⟩ := (minimizer_search sampleGrammar StringCache.empty sampleEncoded
    sampleDerivation _ 0 hdecode).1 [true] sampleMinimized (Run.single ⟨_, rfl, rfl⟩)
  exact ⟨⟨_, hdecode⟩, haddressed, hcount⟩

end Grammar
end Jackalope
