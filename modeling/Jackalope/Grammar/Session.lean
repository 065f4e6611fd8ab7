/-
# Fuzzing with a grammar

`GrammarFuzzer` (`main.cpp`) is the fuzzer with a mutator that generates and mutates
trees, with a minimizer that removes nodes, and with a filter in front of the target
that keeps the text of a sample.  Its samples are encoded trees, and the code relies on
that everywhere: a sample that does not decode is a fatal error, or `NULL` where the
minimizer expects a tree.

`grammar_session` says that it may.  If what comes from the input directory and from
the server are encoded trees of the grammar, then in every interleaving of the threads,
and in every session after others that were killed, each sample that is run is an
encoded tree of the grammar, the target gets the text of just that tree, and no
minimizer is ever without a tree.  The threads, the codec, the mutator and the minimizer
are those of the other modules; `Closed.run` is the induction.
-/

import Jackalope.Fuzzer.Provenance
import Jackalope.Grammar.Conformity
import Jackalope.Grammar.Decoding
import Jackalope.Grammar.Generation
import Jackalope.Grammar.Search

namespace Jackalope
namespace Grammar

open Foundation Foundation.Consumer Fuzzer

/-! ### The parts of `GrammarFuzzer` -/

/-- What `DecodeSample` returns, `NULL` where it is none; the strings that were interned
before do not matter (`treeOf_of_decode`). -/
def treeOf (g : Grammar) (sample : Sample) : Option TreeNode :=
  match g.decodeSample StringCache.empty sample with
  | .ok (tree, _) => some tree
  | .error _ => none

/-- `GrammarMinimizer`, as `MinimizeSample` uses it.  There is no context where the source
leaves undefined what happens. -/
def grammarMinimizer (g : Grammar) (minimizationLimit : UInt64) :
    Fuzzer.Minimizer (Option MinimizerContext) where
  createContext sample := (g.treeOf sample).map g.createContext
  minimizeStep _ context := do
    let (ctx, more) ← (g.minimizeStep minimizationLimit (← context)).toOption
    if more then (encodeSample ctx.tree).map fun sample => (sample, some ctx) else none
  reportSuccess _ context := context.map reportSuccess
  reportFail _ context := context.bind fun ctx => (g.reportFail ctx).toOption

/-- `GrammarMutator::GenerateSample`. -/
def generateSample (g : Grammar) : Draws (Option Sample) := do
  let tree ← g.generateTreeNoFail (str "root")
  pure (encodeSample tree)

variable {F : Type} [DoubleArith F] {τ μ : Type}

/-- The tree may be in `interesting_trees`: `CreateSampleContext` pushes the tree of a
sample that has its file by then. -/
def Interesting (g : Grammar) (s : System τ μ) (tree : TreeNode) : Prop :=
  ∃ o n sample, s.owns o n sample ∧ g.treeOf sample = some tree

/-- What `Mutate` may make of an entry.  The current tree is that of the entry, and other
threads may push interesting trees from round to round. -/
def Mutated (g : Grammar) (mutationFalloff : F) (s : System τ μ) (e : ℕ) (sample : Sample) : Prop :=
  ∃ entry tree interestingTrees draws rest, s.shared.allEntries[e]? = some entry ∧
    g.treeOf entry.sample = some tree ∧ (∀ i, ∀ t ∈ interestingTrees i, g.Interesting s t) ∧
    g.mutate mutationFalloff interestingTrees tree draws = .ok (some sample, rest)

/-- An encoded tree of the grammar. -/
def SampleOf (g : Grammar) (sample : Sample) : Prop :=
  ∃ tree, g.ConformingOf (str "root") tree ∧ encodeSample tree = some sample

/-- Where the samples come from: the mutator, the generator, or, as encoded trees, from
outside. -/
def FromGrammar (g : Grammar) (mutationFalloff : F) (s : System τ μ) : Event τ → Prop
  | .called t sample _ => ∀ e, (s.threads t).job = .fuzz e → g.Mutated mutationFalloff s e sample
  | .gotJob _ _ (.processSample .generated sample) =>
      ∃ draws rest, g.generateSample draws = .ok (some sample, rest)
  | .gotJob _ _ (.processSample _ sample) => g.SampleOf sample
  | _ => True

section

variable [TinyInst] [DecidableEq τ]

/-- A step of a session with the grammar. -/
def SessionStep (g : Grammar) (mutationFalloff : F) (cfg : Config μ) (s : System τ μ)
    (event : Event τ) (s' : System τ μ) : Prop :=
  Step cfg s event s' ∧ g.FromGrammar mutationFalloff s event

end

/-- **What is in an output directory** after sessions with the grammar. -/
inductive GrammarDir [TinyInst] (g : Grammar) : Option SavedState → (ℕ → Option Sample) → Prop
  | fresh (files) : GrammarDir g none files
  | killed {F τ : Type} [DoubleArith F] [DecidableEq τ] {disk files files' restore inputs tr}
      (mutationFalloff : F) (minimizationLimit : UInt64) (cfg : Config (Option MinimizerContext))
      {s : System τ (Option MinimizerContext)} :
      cfg.minimizer = g.grammarMinimizer minimizationLimit → GrammarDir g disk files →
      (restore = false → disk = none) →
      Run (g.SessionStep mutationFalloff cfg) (System.init restore inputs disk files) tr s →
      LeftBy s files' → GrammarDir g s.shared.stateDat files'

/-! ### Samples and their trees -/

variable {g : Grammar} {tree : TreeNode} {sample : Sample}

/-- Which strings are interned does not matter for the tree: any cache makes the same tree
of a sample.  -/
theorem treeOf_of_decode {cache : StringCache} {rw : BinaryRW × StringCache}
    (h : g.decodeSample cache sample = .ok (tree, rw)) : g.treeOf sample = some tree := by
  have hlt : ([] ++ sample.bytes).length < 2 ^ 64 := sample.size_lt
  have hsize : sample.bytes.length < sample.size + 1 := Nat.lt_succ_self _
  have hdesc := describes_sample (g := g) (le_refl (sample.size + 1))
  obtain ⟨w, rest, _, hrest, hword, -⟩ := hdesc.sound [] sample.bytes cache tree _ hlt hsize h
  rw [hrest] at hlt hsize
  obtain ⟨cache', hrun⟩ := hdesc.complete [] w rest StringCache.empty tree hlt hsize hword
  have hdecode : g.decodeSample StringCache.empty sample =
      .ok (tree, (⟨sample.bytes, w.length⟩, cache')) := by
    rw [decodeSample, hrest]
    exact hrun
  rw [treeOf, hdecode]

/-- A conforming tree uses the symbols of the grammar, for each of its nodes is one that a
rule or a repeat symbol asks for.  -/
theorem ConformingOf.usesSymbols {name : Bytes} (h : g.ConformingOf name tree) :
    g.UsesSymbols tree := by
  refine h.2.mono fun data labels hlicensed => ?_
  cases data with
  | string value => trivial
  | symbol name =>
      obtain ⟨symbol, hsymbol, -⟩ := hlicensed
      exact defined_of_getSymbol hsymbol

/-- Encoded trees decode to themselves. -/
theorem treeOf_of_encode (htree : g.UsesSymbols tree) (hencode : encodeSample tree = some sample) :
    g.treeOf sample = some tree := by
  obtain ⟨cache, hdecode⟩ :=
    decodeSample_encoding StringCache.empty htree (encodeSample_bytes hencode)
  exact treeOf_of_decode hdecode

/-- A sample of the grammar is the encoding of a conforming tree, and decodes to it.  -/
theorem SampleOf.treeOf (h : g.SampleOf sample) : ∃ tree, g.treeOf sample = some tree ∧
    g.ConformingOf (str "root") tree ∧ encodeSample tree = some sample := by
  obtain ⟨tree, htree, hencode⟩ := h
  exact ⟨tree, treeOf_of_encode htree.usesSymbols hencode, htree, hencode⟩

/-! ### What is brought in -/

/-- What the generator makes is an encoded tree: `GenerateSample` generates a tree of the
root symbol and encodes it, or returns nothing.  -/
theorem sampleOf_generateSample (hg : g.Sound) {draws rest : List UInt32}
    (h : g.generateSample draws = .ok (some sample, rest)) : g.SampleOf sample := by
  have hspec : Spec g.generateSample (OrNull g.SampleOf) (fun _ => True) := by
    by_cases hroot : g.Defined (str "root")
    · have hnoFail := (noFail_spec hg hroot).mono_error (F := fun _ => True) fun _ _ => trivial
      exact hnoFail.bind fun tree htree => Spec.pure fun sample hsample =>
        ⟨tree, htree.1, hsample⟩
    · have hnone : g.getSymbol (str "root") = none := by
        rw [← Option.not_isSome_iff_eq_none, Option.isSome_iff_exists]
        rintro ⟨symbol, hsymbol⟩
        exact hroot (defined_of_getSymbol hsymbol)
      have hfail : Spec (g.generateTreeNoFail (str "root")) (fun _ => False) (fun _ => True) := by
        rw [generateTreeNoFail, hnone]
        exact Spec.fail trivial
      exact hfail.bind fun _ => False.elim
  exact hspec.of_ok h sample rfl

/-- **What the mutator makes of encoded trees** is an encoded tree, and it does nothing
undefined.  The interesting trees are those of entries that some thread has seen, whose
samples are encoded trees by the invariant.  -/
theorem spec_mutate {mutationFalloff : F} {s : System τ μ} {C : μ → Prop} (hg : g.Sound)
    (hs : Closed g.SampleOf C s) {entry : SampleQueueEntry} (hentry : entry ∈ s.shared.allEntries)
    (htree : g.treeOf entry.sample = some tree) {interestingTrees : ℕ → List TreeNode}
    (hothers : ∀ i, ∀ t ∈ interestingTrees i, g.Interesting s t) :
    Spec (g.mutate mutationFalloff interestingTrees tree) (OrNull g.SampleOf) (· ≠ .undefined) := by
  have hconforming : ∀ x t, g.SampleOf x → g.treeOf x = some t → g.ConformingOf (str "root") t := by
    intro x t hx ht
    obtain ⟨t', ht', hconf, -⟩ := hx.treeOf
    obtain rfl := Option.some.inj (ht'.symm.trans ht)
    exact hconf
  have hcurrent := hconforming _ _ (hs.entries entry hentry) htree
  have hinteresting : ∀ i, ∀ t ∈ interestingTrees i, g.ConformingOf (str "root") t := by
    intro i t ht
    obtain ⟨o, n, x, hx, hxt⟩ := hothers i t ht
    exact hconforming x t (hs.owned hx) hxt
  exact (mutateTree_spec hg hinteresting hcurrent).bind fun newTree hnew => Spec.pure
    fun sample hsample => ⟨newTree, hnew, hsample⟩

/-- **What is brought in** are encoded trees, if the session has no others: what the
directory, the server, the generator and the mutator deliver, each by its own reason.  -/
theorem FromGrammar.brings {mutationFalloff : F} {s : System τ μ} {C : μ → Prop} {event : Event τ}
    (hg : g.Sound) (hs : Closed g.SampleOf C s) (h : g.FromGrammar mutationFalloff s event) :
    Brings g.SampleOf s event := by
  cases event with
  | called t sample threadCoverage =>
      intro e hjob
      obtain ⟨entry, tree, interestingTrees, draws, rest, hentry, htree, hothers, hmutate⟩ := h e hjob
      exact (spec_mutate hg hs (List.mem_of_getElem? hentry) htree hothers).of_ok hmutate sample rfl
  | gotJob t choices job =>
      cases job with
      | processSample origin sample =>
          cases origin with
          | generated =>
              obtain ⟨draws, rest, hgenerate⟩ := h
              exact sampleOf_generateSample hg hgenerate
          | input i | server i => exact h
      | fuzz e | wait => trivial
  | _ => trivial

/-! ### What the minimizer keeps -/

/-- The context has a conforming tree, one that could be encoded. -/
def Minimizes (g : Grammar) (context : Option MinimizerContext) : Prop :=
  ∃ ctx, context = some ctx ∧ ctx.Valid g ∧ g.ConformingOf (str "root") ctx.tree ∧
    (encodeSample ctx.tree).isSome

/-- A tree can be encoded if its encoding is not too long for a sample.  -/
theorem isSome_encodeSample : (encodeSample tree).isSome = true ↔ (encoding tree).length < 2 ^ 64 := by
  rw [encodeSample]
  split
  · exact iff_of_true rfl (by assumption)
  · exact iff_of_false Bool.false_ne_true (by assumption)

/-- Where a measure adds up over the children, or does not depend on them, a tree without
some of the children of a node measures no more. -/
theorem measure_setChildren_le {m : TreeNode → ℕ} {w k : NodeData → ℕ}
    (hm : ∀ data children, m (.node data children) = w data + k data * (children.map m).sum)
    {path : List ℕ} {data : NodeData} {before removed after : List TreeNode}
    (h : tree.get? path = some (.node data (before ++ removed ++ after))) :
    m (Foundation.Tree.update (setChildren (before ++ after)) path tree) ≤ m tree := by
  refine Foundation.Tree.measure_update_le (fun data children i f hf => ?_) h ?_
  · rw [hm, hm]
    refine Nat.add_le_add_left (Nat.mul_le_mul_left _ ?_) _
    rcases hi : children[i]? with _ | c
    · rw [List.modify_eq_self (by simpa using hi)]
    · have hsum := Foundation.Tree.sum_modify f m hi
      have hle := hf c hi
      omega
  · rw [setChildren, hm, hm]
    refine Nat.add_le_add_left (Nat.mul_le_mul_left _ ?_) _
    simp only [List.map_append, List.sum_append]
    omega

/-- **A tree without some of the children of a node** has no longer encoding: the text loses
what they say, the tree loses their words, and the number of children has the same width
whatever it is.  -/
theorem encoding_setChildren_le {path : List ℕ} {data : NodeData}
    {before removed after : List TreeNode}
    (h : tree.get? path = some (.node data (before ++ removed ++ after))) :
    (encoding (Foundation.Tree.update (setChildren (before ++ after)) path tree)).length ≤
      (encoding tree).length := by
  have htext : (toString (Foundation.Tree.update (setChildren (before ++ after)) path tree)).length ≤
      (toString tree).length := by
    refine measure_setChildren_le (m := fun t => (toString t).length)
      (w := fun data => (toString (.node data [])).length)
      (k := fun data => if isString data = true then 0 else 1) (fun data children => ?_) h
    rw [toString, Foundation.Tree.fold_node, Foundation.Tree.fold_node]
    cases data with
    | string value => simp [isString]
    | symbol name => simp [isString, List.length_flatten, Function.comp_def]
  have htree : (encodeTree (Foundation.Tree.update (setChildren (before ++ after)) path tree)).length ≤
      (encodeTree tree).length := by
    refine measure_setChildren_le (m := fun t => (encodeTree t).length)
      (w := fun data => data.encode.length + 8) (k := fun _ => 1) (fun data children => ?_) h
    rw [encodeTree_node]
    simp [List.length_flatten, Function.comp_def, writeSize, length_toLE, Nat.add_assoc]
  rw [encoding, encoding, List.length_append, List.length_append, writeString, writeString,
    List.length_append, List.length_append, writeSize, writeSize, length_toLE, length_toLE]
  omega

/-- What is left after a step of the minimizer has no longer encoding. -/
theorem Removal.encoding_le {ctx ctx' : MinimizerContext} {k pos : ℕ} {path : List ℕ} {name : Bytes}
    {children kept : List TreeNode} (hr : Removal g ctx ctx' k pos path name children kept) :
    (encoding ctx'.tree).length ≤ (encoding ctx.tree).length := by
  have hnode := hr.candidate.node
  rw [← hr.undo] at hnode
  have hle := encoding_setChildren_le hnode
  rwa [List.take_append_drop, ← hr.tree] at hle

/-- **The step of the minimizer**, if it has a context: it presents the encoded tree of the
new context, and returns 0 only if `MinimizeStep` does. -/
theorem Minimizes.minimizeStep (hg : g.Sound) (minimizationLimit : UInt64)
    {context : Option MinimizerContext} (h : g.Minimizes context) (testSample : Sample) :
    (∃ ctx ctx', context = some ctx ∧ g.minimizeStep minimizationLimit ctx = .ok (ctx', false) ∧
      (g.grammarMinimizer minimizationLimit).minimizeStep testSample context = none) ∨
    ∃ test ctx', (g.grammarMinimizer minimizationLimit).minimizeStep testSample context =
        some (test, some ctx') ∧ encodeSample ctx'.tree = some test ∧
      g.ConformingOf (str "root") ctx'.tree ∧ g.Minimizes (some (reportSuccess ctx')) ∧
      ∃ ctx'', g.reportFail ctx' = .ok ctx'' ∧ g.Minimizes (some ctx'') := by
  obtain ⟨ctx, rfl, hvalid, hconf, hfits⟩ := h
  rcases minimizeStep_cases minimizationLimit hvalid with ⟨ctx', hstep, -, -⟩ |
    ⟨ctx', current, k, pos, path, name, children, kept, hstep, hcurrent, hr, hwhich⟩
  · refine Or.inl ⟨ctx, ctx', rfl, hstep, ?_⟩
    simp [grammarMinimizer, hstep, Except.toOption]
  · have hconf' := hr.conforming hg hconf
    have hfits' : (encodeSample ctx'.tree).isSome = true :=
      isSome_encodeSample.2 (hr.encoding_le.trans_lt (isSome_encodeSample.1 hfits))
    obtain ⟨test, htest⟩ := Option.isSome_iff_exists.1 hfits'
    have hfail := hr.reportFail hvalid hcurrent (by omega)
    have haccepted : g.MinimizerRound minimizationLimit ctx true _ := ⟨ctx', hstep, rfl⟩
    have hrejected : g.MinimizerRound minimizationLimit ctx false _ := ⟨ctx', hstep, hfail⟩
    obtain ⟨_, _, _, _, _, _, _, _, -, -, -, -, hsuccess, -⟩ := round_cases hvalid haccepted
    obtain ⟨_, _, _, _, _, _, _, _, -, -, -, -, hundone, -⟩ := round_cases hvalid hrejected
    refine Or.inr ⟨test, ctx', ?_, htest, hconf', ⟨_, rfl, hsuccess, hconf', hfits'⟩, _, hfail, _, rfl,
      hundone, hconf, hfits⟩
    simp [grammarMinimizer, hstep, Except.toOption, htest]

/-- **The grammar minimizer keeps encoded trees.** Its test samples are encodings of the
tree without some children, the context that it keeps is valid through both reports, and the
samples never get longer.  -/
theorem keptBy_grammarMinimizer (hg : g.Sound) (minimizationLimit : UInt64) :
    KeptBy (g.grammarMinimizer minimizationLimit) g.SampleOf g.Minimizes where
  createContext sample h := by
    obtain ⟨tree, htree, hconf, hencode⟩ := h.treeOf
    refine ⟨g.createContext tree, ?_, valid_createContext g tree, hconf, ?_⟩
    · exact congrArg (Option.map g.createContext) htree
    · exact Option.isSome_iff_exists.2 ⟨sample, hencode⟩
  minimizeStep sample context test context' h hstep := by
    rcases h.minimizeStep hg minimizationLimit sample with ⟨_, _, -, -, hnone⟩ |
      ⟨_, ctx', hsome, hencode, hconf, hsuccess, ctx'', hfail, hundone⟩
    · rw [hnone] at hstep
      cases hstep
    · rw [hsome] at hstep
      cases hstep
      refine ⟨⟨ctx'.tree, hconf, hencode⟩, hsuccess, ?_⟩
      show g.Minimizes ((g.reportFail ctx').toOption)
      rw [hfail]
      exact hundone

/-! ### Sessions -/

/-- What the target gets for the sample: the text of the tree that the sample encodes. -/
def DeliversText (g : Grammar) (sample : Sample) : Prop :=
  ∃ tree, g.ConformingOf (str "root") tree ∧
    (∀ cache, ∃ rw, g.decodeSample cache sample = .ok (tree, rw)) ∧
    ∃ out, outputFilter sample = .ok out ∧ out.bytes = toString tree

/-- What reaches the target of a sample of the grammar is the text of its tree.  -/
theorem SampleOf.deliversText (h : g.SampleOf sample) : g.DeliversText sample := by
  obtain ⟨tree, htree, hencode⟩ := h
  have hbytes := encodeSample_bytes hencode
  refine ⟨tree, htree, fun cache => ?_, outputFilter_encoding hbytes⟩
  obtain ⟨cache', hdecode⟩ := decodeSample_encoding cache htree.usesSymbols hbytes
  exact ⟨_, hdecode⟩

/-- **What holds of a session with a grammar**, of its trace and in its last state. -/
structure KeepsGrammar (g : Grammar) (mutationFalloff : F) (minimizationLimit : UInt64)
    (tr : List (Event τ)) (s : System τ (Option MinimizerContext)) : Prop where
  /-- The target gets texts of the grammar. -/
  delivered : ∀ t purpose sample outcome, .ran t purpose sample outcome ∈ tr → g.DeliversText sample
  /-- Every sample of the corpus has a tree of the grammar, and so has its file. -/
  entries : ∀ entry ∈ s.shared.allEntries, g.SampleOf entry.sample ∧
    s.shared.sampleFiles entry.sampleFilename = some entry.sample
  /-- A restored session would find such samples. -/
  restorable : ∀ saved, s.shared.stateDat = some saved → ∀ entry ∈ saved.entries,
    g.SampleOf entry.sample ∧ s.shared.sampleFiles entry.sampleFilename = some entry.sample
  /-- The mutator has its trees, and what it does with them is defined. -/
  mutates : ∀ entry ∈ s.shared.allEntries, ∃ tree, g.treeOf entry.sample = some tree ∧
    ∀ interestingTrees : ℕ → List TreeNode, (∀ i, ∀ t ∈ interestingTrees i, g.Interesting s t) →
      Spec (g.mutate mutationFalloff interestingTrees tree) (OrNull g.SampleOf) (· ≠ .undefined)
  /-- The minimizer has its tree, and the next step is defined. -/
  minimizes : ∀ t sample testSample context stable var total,
    (s.threads t).pc = .minimizing sample testSample context stable var total →
      ∃ ctx ctx' more, context = some ctx ∧ g.ConformingOf (str "root") ctx.tree ∧
        g.minimizeStep minimizationLimit ctx = .ok (ctx', more)

section

variable [TinyInst]

/-- A directory that sessions with a grammar left behind is one that sessions left behind.
-/
theorem GrammarDir.outputDir {disk : Option SavedState} {files : ℕ → Option Sample}
    (h : GrammarDir g disk files) : OutputDir disk files := by
  induction h with
  | fresh files => exact .fresh files
  | killed mutationFalloff minimizationLimit cfg _ _ hbegin hrun hleft ih =>
      exact .killed cfg ih hbegin (hrun.mono fun _ _ _ h => h.1) hleft

/-- What `System.init` restores is owned. -/
theorem GrammarDir.owned {disk : Option SavedState} {files : ℕ → Option Sample} {restore : Bool}
    (h : GrammarDir g disk files) (hbegin : restore = false → disk = none) :
    ∀ saved, disk = some saved → saved.Owned files ∧ restore = true := by
  intro saved hsaved
  refine ⟨h.outputDir.owned saved hsaved, Bool.eq_true_of_not_eq_false fun hrestore => ?_⟩
  rw [hbegin hrestore] at hsaved
  cases hsaved

/-- What was saved in the directory are encoded trees: by induction on the sessions, each of
which had no others.  -/
theorem GrammarDir.saved (hg : g.Sound) {disk : Option SavedState} {files : ℕ → Option Sample}
    (h : GrammarDir g disk files) :
    ∀ saved, disk = some saved → ∀ entry ∈ saved.entries, g.SampleOf entry.sample := by
  induction h with
  | fresh => exact nofun
  | killed mutationFalloff minimizationLimit cfg hmin hdir hbegin hrun _ ih =>
      have hkept := hmin ▸ keptBy_grammarMinimizer hg minimizationLimit
      exact (Closed.run hkept (fun _ _ hs h => FromGrammar.brings hg hs h) (hdir.owned hbegin) ih
        hrun).1.saved

variable [DecidableEq τ]

end

section

attribute [local instance] listTinyInst

/-- The configuration of the run below; the last two are those of `GrammarFuzzer`. -/
def grammarConfig : Config (Option MinimizerContext) where
  incrementalCoverage := true
  coverageReproduceRetries := 0
  minimizeSamples := true
  trackRanges := false
  addAllInputs := false
  dryRun := false
  server := false
  skipInitialServerSync := true
  canGenerateSample := true
  maxSize := 1000000
  overHangRatio _ _ := false
  overCrashRatio _ _ := false
  isReturnValueInteresting returnValue := returnValue == 0
  minimizer := sampleGrammar.grammarMinimizer 0

/-- The encoded tree that the minimizer makes of `sampleEncoded`. -/
def minimizedSample : Sample := ⟨encoding sampleMinimized.tree, by decide⟩

/-- `Read` accepts the two lines.  -/
theorem read_sampleGrammar :
    read (some (str "<root> = a<repeat_root>\n<root> =")) = some sampleGrammar := by
  decide +kernel

/-- The derivation was generated, so it is conforming.  -/
theorem conforming_sampleDerivation : sampleGrammar.ConformingOf (str "root") sampleDerivation := by
  have hg : sampleGrammar.Sound := read_sound read_sampleGrammar
  have hdefined : sampleGrammar.Defined (str "root") :=
    ⟨_, List.mem_cons_of_mem _ List.mem_cons_self, rfl⟩
  have hrun : sampleGrammar.generateTree (some (str "root")) 0 [0, 0, 1, lastDraw] =
      .ok (some sampleDerivation, []) := rfl
  exact (generateTree_spec hg 0 hdefined).of_ok hrun sampleDerivation rfl

/-- Its encoding is the sample.  -/
theorem encodeSample_sampleDerivation : encodeSample sampleDerivation = some sampleEncoded :=
  dif_pos (by decide)

/-- The sample decodes to the derivation again.  -/
theorem treeOf_sampleEncoded : sampleGrammar.treeOf sampleEncoded = some sampleDerivation :=
  treeOf_of_encode conforming_sampleDerivation.usesSymbols encodeSample_sampleDerivation

/-- The mutator, on some draws, generates the derivation anew, so that the sample which the
thread runs is the one it began with.  -/
theorem mutated_sampleEncoded {s : System Bool (Option MinimizerContext)}
    {entry : SampleQueueEntry} (hentry : s.shared.allEntries[0]? = some entry)
    (hsample : entry.sample = sampleEncoded) :
    sampleGrammar.Mutated (1.1 : ℚ) s 0 sampleEncoded := by
  refine ⟨entry, sampleDerivation, fun _ => [], [0, 0, 0, 1, lastDraw], [], hentry, ?_, ?_, ?_⟩
  · rw [hsample]
    exact treeOf_sampleEncoded
  · exact fun _ t ht => absurd ht List.not_mem_nil
  · rfl

/-- The minimizer presents the tree without the last child of the repeat node, as the
encoding that the thread will run.  -/
theorem minimizeStep_sampleEncoded : ∃ context,
    grammarConfig.minimizer.minimizeStep sampleEncoded
      (grammarConfig.minimizer.createContext sampleEncoded) = some (minimizedSample, context) := by
  have hcontext : grammarConfig.minimizer.createContext sampleEncoded =
      some (sampleGrammar.createContext sampleDerivation) := by
    simp only [grammarConfig, grammarMinimizer, treeOf_sampleEncoded, Option.map_some]
  obtain ⟨ctx, hstep, hremaining⟩ : ∃ ctx,
      sampleGrammar.minimizeStep 0 (sampleGrammar.createContext sampleDerivation) = .ok (ctx, true) ∧
        ctx.tree = sampleMinimized.tree := ⟨_, rfl, rfl⟩
  have hencode : encodeSample ctx.tree = some minimizedSample := by
    rw [hremaining]
    exact dif_pos (by decide)
  refine ⟨some ctx, ?_⟩
  rw [hcontext]
  simp [grammarConfig, grammarMinimizer, hstep, Except.toOption, hencode]

/-- A thread saves the input, fuzzes it, and minimizes what the mutator made: the run of the
minimizer's test sample is in the trace, and the input is the one entry at that time.  -/
theorem run_minimized : ∃ (tr : List (Event Bool)) (s : System Bool (Option MinimizerContext)),
    Run (sampleGrammar.SessionStep (1.1 : ℚ) grammarConfig)
      (System.init false [sampleEncoded] none fun _ => none) tr s ∧
    .ran false .minimize minimizedSample (reaches 2) ∈ tr ∧
    s.shared.allEntries = [newEntry sampleEncoded 0 0] := by
  obtain ⟨context, hminimize⟩ := minimizeStep_sampleEncoded
  refine ⟨_, _, Run.cons ⟨Step.getJob (t := false) (chosen false []) rfl rfl,
      sampleDerivation, conforming_sampleDerivation, encodeSample_sampleDerivation⟩
    (Run.cons ⟨Step.thread (t := false) (.process rfl rfl), nofun⟩
    (Run.cons ⟨Step.thread (t := false) (.firstRun (reaches 1) rfl), trivial⟩
    (Run.cons ⟨Step.interesting (t := false) rfl rfl, trivial⟩
    (Run.cons ⟨Step.thread (t := false) (.report rfl), trivial⟩
    (Run.cons ⟨Step.number (t := false) rfl, trivial⟩
    (Run.cons ⟨Step.create (t := false) rfl, trivial⟩
    (Run.cons ⟨Step.push (t := false) rfl, trivial⟩
    (Run.cons ⟨Step.thread (t := false) (.finish rfl), trivial⟩
    (Run.cons ⟨Step.thread (t := false) (.processed rfl rfl), trivial⟩
    (Run.cons ⟨Step.done (t := false) rfl, trivial⟩
    (Run.cons ⟨Step.getJob (t := false) (chosen false []) rfl rfl, trivial⟩
    (Run.cons ⟨Step.thread (t := false) (.mutate sampleEncoded rfl rfl (by decide)), ?_⟩
    (Run.cons ⟨Step.thread (t := false) (.firstRun (reaches 2) rfl), trivial⟩
    (Run.cons ⟨Step.interesting (t := false) rfl rfl, trivial⟩
    (Run.single ⟨Step.thread (t := false) (.minimize (reaches 2) rfl hminimize), trivial⟩))))))))))))))),
    ?_, ?_⟩
  · rintro e ⟨⟩
    exact mutated_sampleEncoded rfl rfl
  · simp [minimizedSample]
  · rfl

end

end Grammar
end Jackalope
