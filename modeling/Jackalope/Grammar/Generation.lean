/-
# Grammars that can generate

`GenerateTreeNoFail` calls `GenerateTree` until it gives a tree, and `CheckGrammar`
lets every grammar through in which each symbol has a rule.  That is not enough: a
symbol may need itself, or may only be done below `MAX_DEPTH`.

`Derivable` is what is needed: a repeat symbol is done at once, and any other needs a
rule whose symbols are derivable one level deeper, but for those that are copies of an
earlier part with the same id.  `GenerateTree` gives a tree on some draws exactly then
(`generateLevels_returns_iff`), and on no draws otherwise, so then the loop is not left
(`generateTreeNoFail_returns_iff`).  With rules that `Rand` can all pick, the derivations
are the conforming trees within the limit (`derivable_iff_tree`).
-/

import Jackalope.Grammar.Attributes
import Jackalope.Grammar.Depth

namespace Jackalope
namespace Grammar

open Foundation Foundation.Consumer

/-- A round of the loop of `GenerateTreeNoFail`. -/
def noFailBody (g : Grammar) (name : Bytes) (_ : Unit) : Draws (Unit ⊕ TreeNode) := do
  match ← g.generateTree (some name) 0 with
  | none => pure (.inl ())
  | some tree => pure (.inr tree)

/-- `GrammarMutator::GenerateTreeNoFail(name, prng)`. -/
def generateTreeNoFail (g : Grammar) (name : Bytes) : Draws TreeNode :=
  match g.getSymbol name with
  | none => fail .fatal
  | some symbol => loop .noDraws (g.noFailBody symbol.name) ()

/-- **The symbol can be derived with this many levels of symbol nodes.**  `Rand` gives 32
bits, so no rule behind the first `2^32` of a symbol can be picked. -/
inductive Derivable (g : Grammar) : ℕ → Bytes → Prop
  | repetition {levels name symbol} : g.getSymbol name = some symbol → symbol.isRepeat = true →
      Derivable g (levels + 1) name
  | rule {levels name symbol k rule} : g.getSymbol name = some symbol → symbol.isRepeat = false →
      symbol.generators[k]? = some rule → k < 2 ^ 32 →
      (∀ i value id attributes, rule.parts[i]? = some (.symbol value id attributes) →
        findId (rule.parts.take i) id = none → Derivable g levels value) →
      Derivable g (levels + 1) name

variable {g : Grammar} {name : Bytes} {levels : ℕ}

/-! ### What is derivable may be generated -/

/-- Any of the first `2 ^ 32` numbers may be drawn below a bound that is greater, and no
other, since a draw has 32 bits.  -/
theorem mayReturn_randMod {n k : ℕ} (hk : k < n) (hlt : k < 2 ^ 32) : MayReturn (randMod n) k := by
  rw [randMod, if_neg (by omega)]
  have hdraw : (UInt32.ofNat k).toNat % n = k := by
    rw [UInt32.toNat_ofNat_of_lt' hlt, Nat.mod_eq_of_lt hk]
  have hpure := MayReturn.pure (τ := UInt32) (ε := Stop) ((UInt32.ofNat k).toNat % n)
  rw [hdraw] at hpure
  refine (mayReturn_rand (UInt32.ofNat k)).bind ?_
  rw [hdraw]
  exact hpure

/-- The loop over the parts of a rule, if a tree may be had for each part that needs
one. -/
theorem mayReturn_generateParts {generate : Bytes → Draws (Option TreeNode)}
    {parts before : List RulePart} {children : List TreeNode}
    (hlength : before.length = children.length)
    (hgenerate : ∀ i value id attributes, parts[i]? = some (.symbol value id attributes) →
      findId (before ++ parts.take i) id = none → ∃ tree, MayReturn (generate value) (some tree)) :
    ∃ cs, MayReturn (generateParts generate before parts children) (some cs) := by
  induction parts generalizing before children with
  | nil => exact ⟨children, MayReturn.pure _⟩
  | cons part parts ih =>
      have hpart : ∃ child, MayReturn (generatePart generate before children part) (some child) := by
        cases part with
        | string value => exact ⟨generateStringNode value, MayReturn.pure _⟩
        | symbol value id attributes =>
            rw [generatePart]
            split
            · rename_i i hfind
              obtain ⟨-, _, _, hget⟩ := findId_spec hfind
              have hlt := (List.getElem?_eq_some_iff.1 hget).1
              rw [List.getElem?_eq_getElem (hlength ▸ hlt)]
              exact ⟨_, MayReturn.pure _⟩
            · rename_i hfind
              exact hgenerate 0 value id attributes rfl (by simpa using hfind)
      obtain ⟨child, hchild⟩ := hpart
      have hlength' : (before ++ [part]).length = (children ++ [child]).length := by
        rw [List.length_append, List.length_append, hlength]
        rfl
      obtain ⟨cs, hcs⟩ := ih hlength' fun i value id attributes hget hfind =>
        hgenerate (i + 1) value id attributes hget (by simpa using hfind)
      exact ⟨cs, hchild.bind hcs⟩

/-- **`GenerateTree` may give a tree of a derivable symbol.** By the levels of the
derivation: each rule it uses is one that `Rand` can pick, and its parts are generated with
a level less.  -/
theorem Derivable.mayReturn (h : g.Derivable levels name) :
    ∃ tree, MayReturn (g.generateLevels levels (some name)) (some tree) := by
  induction h with
  | @repetition levels name symbol hsymbol hrepeat =>
      refine ⟨Foundation.Tree.node (.symbol symbol.name) [], ?_⟩
      rw [generateLevels, deref_eq hsymbol, pure_bind, generateChildren, if_pos hrepeat,
        loop_eq _ (Advances.of_consumes (consumes_repeatBody (shrinks_generateLevels g levels _)))]
      have hleave : MayReturn (repeatBody (g.generateLevels levels) symbol.repeatSymbol [])
          (.inr (some [])) := (mayReturn_rand lastDraw).bind (MayReturn.pure _)
      refine MayReturn.bind (a := some []) (hleave.bind ?_) ?_
      · exact MayReturn.pure _
      · exact MayReturn.pure _
  | @rule levels name symbol k rule hsymbol hrepeat hrule hlt _ ih =>
      obtain ⟨cs, hcs⟩ := @mayReturn_generateParts (fun name => g.generateLevels levels (some name))
        rule.parts [] [] rfl fun i value id attributes hget hfind => ih i value id attributes hget hfind
      refine ⟨Foundation.Tree.node (.symbol symbol.name) cs, ?_⟩
      rw [generateLevels, deref_eq hsymbol, pure_bind, generateChildren, if_neg (by simp [hrepeat])]
      refine MayReturn.bind (a := some cs) ?_ ?_
      · refine (mayReturn_randMod (List.getElem?_eq_some_iff.1 hrule).1 hlt).bind ?_
        rw [hrule]
        exact hcs
      · exact MayReturn.pure _

/-! ### What is generated is derivable -/

/-- The loop over the parts of a rule gives children only if each part that needs a tree
gets one. -/
theorem generateParts_derives {generate : Bytes → Draws (Option TreeNode)} {P : Bytes → Prop}
    {parts before : List RulePart} {children : List TreeNode}
    (hgenerate : ∀ value, Spec (generate value) (OrNull fun _ => P value) (fun _ => True)) :
    Spec (generateParts generate before parts children)
      (OrNull fun _ => ∀ i value id attributes, parts[i]? = some (.symbol value id attributes) →
        findId (before ++ parts.take i) id = none → P value) (fun _ => True) := by
  induction parts generalizing before children with
  | nil => exact Spec.pure (orNull_some fun i value id attributes hget => by cases hget)
  | cons part parts ih =>
      have hpart : Spec (generatePart generate before children part)
          (OrNull fun _ => ∀ value id attributes, part = .symbol value id attributes →
            findId before id = none → P value) (fun _ => True) := by
        cases part with
        | string value => exact Spec.pure (orNull_some nofun)
        | symbol value id attributes =>
            rw [generatePart]
            split
            · rename_i j hfind
              split
              · refine Spec.pure (orNull_some ?_)
                rintro value' id' attributes' ⟨⟩ hnone
                rw [hfind] at hnone
                cases hnone
              · exact Spec.fail trivial
            · refine (hgenerate value).mono fun result hresult child hchild => ?_
              rintro value' id' attributes' ⟨⟩ -
              exact hresult child hchild
      rw [generateParts]
      refine hpart.bind fun result hresult => ?_
      cases result with
      | none => exact Spec.pure (orNull_none _)
      | some child =>
          refine ih.mono fun result' hresult' cs hcs => ?_
          intro i value id attributes hget hfind
          cases i with
          | zero =>
              cases hget
              exact hresult child rfl value id attributes rfl (by simpa using hfind)
          | succ i => exact hresult' cs hcs i value id attributes hget (by simpa using hfind)

/-- The children of a symbol are had by one of its rules: if they were all generated, every
symbol part of that rule is derivable with the levels below.  -/
theorem generateChildren_derives {symbol : Symbol} (hsymbol : g.getSymbol name = some symbol)
    (hlevels : ∀ value, Spec (g.generateLevels levels (some value))
      (OrNull fun _ => g.Derivable levels value) (fun _ => True)) :
    Spec (generateChildren (g.generateLevels levels) symbol)
      (OrNull fun _ => g.Derivable (levels + 1) name) (fun _ => True) := by
  by_cases hrepeat : symbol.isRepeat = true
  · exact (Spec.any _).mono fun _ _ _ _ => .repetition hsymbol hrepeat
  · rw [generateChildren, if_neg hrepeat]
    have hdraw : Spec (randMod symbol.generators.length) (· < 2 ^ 32) (fun _ => True) := by
      rw [randMod]
      split
      · exact Spec.fail trivial
      · refine (Spec.any _).bind fun r _ => Spec.pure ?_
        exact (Nat.mod_le _ _).trans_lt (UInt32.toNat_lt r)
    refine hdraw.bind fun k hk => ?_
    split
    · rename_i rule hrule
      refine (generateParts_derives hlevels).mono fun result hresult cs hcs => ?_
      refine .rule hsymbol (Bool.eq_false_of_not_eq_true hrepeat) hrule hk ?_
      exact hresult cs hcs
    · exact Spec.fail trivial

/-- **What is generated is derivable**: a tree that comes out is a witness of the rules that
were picked, level by level.  -/
theorem generateLevels_derives (levels : ℕ) (name : Bytes) :
    Spec (g.generateLevels levels (some name)) (OrNull fun _ => g.Derivable levels name)
      (fun _ => True) := by
  induction levels generalizing name with
  | zero => exact Spec.pure (orNull_none _)
  | succ levels ih =>
      rw [generateLevels, deref]
      cases hsymbol : (some name).bind g.getSymbol with
      | none => exact Spec.fail trivial
      | some symbol =>
          show Spec (pure symbol >>= _) _ _
          rw [pure_bind]
          refine (generateChildren_derives hsymbol ih).bind fun result hresult => Spec.pure ?_
          intro tree htree
          obtain ⟨cs, hcs, -⟩ := Option.map_eq_some_iff.1 htree
          exact hresult cs hcs

/-- **`GenerateTree` gives a tree on some draws iff the symbol is derivable** with the
levels that are left.  The draws that give it are those which pick the rules of the
derivation.  -/
theorem generateLevels_returns_iff (levels : ℕ) (name : Bytes) :
    (∃ tree draws rest, g.generateLevels levels (some name) draws = .ok (some tree, rest)) ↔
      g.Derivable levels name := by
  constructor
  · rintro ⟨tree, draws, rest, h⟩
    exact (generateLevels_derives levels name).of_ok h tree rfl
  · intro h
    obtain ⟨tree, used, hused⟩ := h.mayReturn
    exact ⟨tree, used ++ [], [], hused []⟩

/-! ### `GenerateTreeNoFail` -/

/-- `GenerateTree` draws at least once before it returns a tree or null, so a loop that
calls it again and again uses up the draws.  -/
theorem consumes_generateLevels (g : Grammar) (levels : ℕ) (pointer : Option Bytes) :
    Consumes (g.generateLevels (levels + 1) pointer) := by
  rw [generateLevels]
  refine (shrinks_deref g pointer).bind_consumes fun symbol => Consumes.bind ?_ fun _ => shrinks_pure _
  have hbody := consumes_repeatBody (shrinks_generateLevels g levels symbol.repeatSymbol)
  rw [generateChildren]
  split
  · rw [loop_eq _ (Advances.of_consumes hbody)]
    refine (hbody []).bind ?_
    rintro (cs | result)
    · exact shrinks_loop _ (fun cs => (hbody cs).shrinks) _
    · exact shrinks_pure _
  · refine (consumes_randMod _).bind fun k => ?_
    split
    · exact shrinks_generateParts fun _ => shrinks_generateLevels g levels _
    · exact shrinks_fail _

/-- Each attempt draws at least once, so the draws come to an end if no attempt succeeds.
-/
theorem advances_noFailBody (g : Grammar) (name : Bytes) : Advances (g.noFailBody name) := by
  refine Advances.of_consumes fun _ => Consumes.bind ?_ fun result => ?_
  · exact consumes_generateLevels g maxDepth (some name)
  · cases result <;> exact shrinks_pure _

/-- A round goes on without a tree, or it leaves with what `GenerateTree` gives. -/
theorem spec_noFailBody {Q : TreeNode → Prop} {E : Stop → Prop}
    (h : Spec (g.generateTree (some name) 0) (OrNull Q) E) (u : Unit) :
    Spec (g.noFailBody name u) (Sum.elim (fun _ => True) Q) E := by
  refine h.bind fun result hresult => ?_
  cases result with
  | none => exact Spec.pure trivial
  | some tree => exact Spec.pure (hresult tree rfl)

/-- **`GenerateTreeNoFail` returns on some draws iff the symbol is derivable** without a
symbol node below `MAX_DEPTH`; otherwise its loop is not left, whatever the draws. -/
theorem noFail_returns_iff (hname : g.Defined name) :
    (∃ draws tree rest, g.generateTreeNoFail name draws = .ok (tree, rest)) ↔
      g.Derivable (maxDepth + 1) name := by
  obtain ⟨symbol, hsymbol⟩ := hname.getSymbol
  rw [generateTreeNoFail, hsymbol]
  obtain rfl : symbol.name = name := (getSymbol_mem hsymbol).2
  constructor
  · rintro ⟨draws, tree, rest, h⟩
    have hbody := spec_noFailBody (g.generateLevels_derives (maxDepth + 1) symbol.name)
    exact (Spec.loop (fun _ => True) trivial (fun u _ => hbody u) trivial).of_ok h
  · intro h
    obtain ⟨tree, htree⟩ := h.mayReturn
    have hround : MayReturn (g.noFailBody symbol.name ()) (.inr tree) :=
      MayReturn.bind (a := some tree) htree (MayReturn.pure _)
    have hloop : MayReturn (loop .noDraws (g.noFailBody symbol.name) ()) tree := by
      rw [loop_eq _ (advances_noFailBody g symbol.name)]
      exact hround.bind (MayReturn.pure tree)
    obtain ⟨used, hused⟩ := hloop
    exact ⟨used ++ [], tree, [], hused []⟩

/-- **What `GenerateTreeNoFail` returns** conforms and is within the limit; nothing but the
end of the draws stops it. -/
theorem noFail_spec (h : g.Sound) (hname : g.Defined name) :
    Spec (g.generateTreeNoFail name) (fun tree => g.ConformingOf name tree ∧ DepthLimited tree)
      (· = .noDraws) := by
  obtain ⟨symbol, hsymbol⟩ := hname.getSymbol
  rw [generateTreeNoFail, hsymbol]
  obtain rfl : symbol.name = name := (getSymbol_mem hsymbol).2
  have hconforming := generateTree_spec h 0 hname
  have hfits := @generateLevels_fits g (maxDepth + 1) 0 (some symbol.name) le_rfl
  have htree := (hconforming.and hfits).mono fun result hresult tree htree =>
    And.intro (hresult.1 tree htree) (hresult.2 tree htree)
  have hbody := spec_noFailBody (htree.mono_error fun _ => And.left)
  refine Spec.loop (fun _ => True) ?_ (fun u _ => hbody u) trivial
  exact rfl

/-! ### Derivations and trees -/

/-- A part that is no copy is the first with its id. -/
theorem findId_eq_none {before : List RulePart} {id : ℕ} (hid : id ≠ 0)
    (h : findId before id = none) : ∀ part ∈ before, part.id ≠ id := by
  rw [findId, if_neg hid, Option.map_eq_none_iff, List.getLast?_eq_none_iff,
    List.filter_eq_nil_iff] at h
  intro part hpart heq
  obtain ⟨i, hi⟩ := List.getElem?_of_mem hpart
  exact h (part, i) (List.mem_zipIdx_iff_getElem?.2 hi) (decide_eq_true heq)

/-- A conforming tree within the limit is a derivation, if `Rand` can pick every rule.  A
symbol with more than `2 ^ 32` rules would have some that are out of its reach.  -/
theorem derivable_of_tree (hrules : ∀ symbol ∈ g.symbols, symbol.generators.length ≤ 2 ^ 32)
    {tree : TreeNode} {depth : ℕ} (htree : g.ConformingOf name tree) (hfits : FitsAt depth tree) :
    g.Derivable (maxDepth + 1 - depth) name := by
  induction tree using Foundation.Tree.induction generalizing name depth with
  | h label children ih =>
      obtain ⟨rfl, hconf⟩ := htree
      obtain ⟨hlicensed, hchildren⟩ := Foundation.Tree.follows_node.1 hconf
      obtain ⟨hdepth, hbelow⟩ := fitsAt_symbolNode.1 hfits
      obtain ⟨symbol, hsymbol, hrule⟩ := hlicensed
      obtain ⟨levels, hlevels⟩ : ∃ levels, maxDepth + 1 - depth = levels + 1 :=
        ⟨maxDepth - depth, by omega⟩
      have hlevels' : maxDepth + 1 - (depth + 1) = levels := by omega
      rw [hlevels]
      split at hrule
      · exact .repetition hsymbol (by assumption)
      · rename_i hrepeat
        obtain ⟨rule, hmem, hparts⟩ := hrule
        obtain ⟨k, hk⟩ := List.getElem?_of_mem hmem
        have hlt := (List.getElem?_eq_some_iff.1 hk).1
        have hle := hrules symbol (getSymbol_mem hsymbol).1
        refine .rule hsymbol (Bool.eq_false_of_not_eq_true hrepeat) hk (hlt.trans_le hle) ?_
        intro i value id attributes hget hfind
        -- the child for a part that is no copy has the symbol of the part
        have hi : i < children.length := by
          have := (List.getElem?_eq_some_iff.1 hget).1
          rwa [hparts.1, List.length_map] at this
        have hchild := List.getElem_mem hi
        have hlabel : (children.map Foundation.Tree.label)[i]? = some children[i].label := by
          rw [List.getElem?_map, List.getElem?_eq_getElem hi]
          rfl
        rw [← hlevels']
        refine ih children[i] hchild ⟨?_, hchildren _ hchild⟩ (hbelow _ hchild)
        rcases hparts.2 i _ _ hget hlabel with hown | ⟨hid, name', attributes', hcopy, -⟩
        · exact hown
        · exact absurd rfl (findId_eq_none hid hfind _ hcopy)

/-- **The derivations are the conforming trees within the limit**, if `Rand` can pick
every rule. -/
theorem derivable_iff_tree (h : g.Sound) (hname : g.Defined name)
    (hrules : ∀ symbol ∈ g.symbols, symbol.generators.length ≤ 2 ^ 32) :
    g.Derivable (maxDepth + 1) name ↔ ∃ tree, g.ConformingOf name tree ∧ DepthLimited tree := by
  constructor
  · intro hderivable
    obtain ⟨tree, used, hused⟩ := hderivable.mayReturn
    refine ⟨tree, (generateLevels_spec h _ hname).of_ok (hused []) tree rfl, ?_⟩
    exact (generateLevels_fits _ 0 (some name) le_rfl).of_ok (hused []) tree rfl
  · rintro ⟨tree, htree, hfits⟩
    exact derivable_of_tree hrules htree hfits

/-! ### A grammar that is read -/

/-- **An accepted grammar can generate iff its root is derivable.**  What it generates is a
conforming tree of the root with no symbol node below `MAX_DEPTH`, and only the end of the
draws stops it otherwise. -/
theorem generateTreeNoFail_returns_iff {file : Option Bytes} (hread : read file = some g)
    (hroot : g.Defined (str "root")) :
    ((∃ draws tree rest, g.generateTreeNoFail (str "root") draws = .ok (tree, rest)) ↔
      g.Derivable (maxDepth + 1) (str "root")) ∧
    ∀ draws, (∃ tree rest, g.generateTreeNoFail (str "root") draws = .ok (tree, rest) ∧
        g.ConformingOf (str "root") tree ∧ DepthLimited tree) ∨
      g.generateTreeNoFail (str "root") draws = .error .noDraws := by
  refine ⟨noFail_returns_iff hroot, fun draws => ?_⟩
  have hspec := noFail_spec (read_sound hread) hroot draws
  rcases h : g.generateTreeNoFail (str "root") draws with e | ⟨tree, rest⟩
  · rw [h] at hspec
    exact Or.inr (congrArg Except.error hspec)
  · rw [h] at hspec
    exact Or.inl ⟨tree, rest, rfl, hspec⟩

/-- A grammar of one rule, for the root. -/
def rootGrammar (parts : List RulePart) : Grammar :=
  analyzeGrammar ⟨[{ Symbol.create (str "root") with generators := [⟨str "root", parts⟩] }]⟩

/-- A file of one line, which needs no symbol but the root: `Read` accepts it with that one
rule, for the root has a rule then.  -/
theorem read_rootGrammar {file : Bytes} {l : Line} (hlines : getlines file = [file])
    (hne : cleanLine file ≠ []) (hread : readLine empty file = some l)
    (hgenerates : l.generates = str "root")
    (hgrammar : l.grammar.getOrCreateSymbol (str "root") = empty.getOrCreateSymbol (str "root")) :
    read (some file) = some (rootGrammar l.parts) := by
  have hroot : empty.getOrCreateSymbol (str "root") = ⟨[Symbol.create (str "root")]⟩ := by
    rw [getOrCreateSymbol, if_neg (by decide), dif_neg (by decide)]
    rfl
  have hparse : parseGrammarLine empty file = some
      ((⟨[Symbol.create (str "root")]⟩ : Grammar).addGenerator (str "root") ⟨str "root", l.parts⟩) := by
    rw [parseGrammarLine_eq, if_neg hne, hread, Option.map_some, hgenerates, hgrammar, hroot]
  rw [read, Option.bind_eq_bind, Option.bind_some, hlines, List.foldlM_cons, hparse]
  rfl

/-- The only rule of this root needs the root. -/
def loopGrammar : Grammar := rootGrammar [.symbol (str "root") 0 []]

/-- `Read` accepts the grammar, for `CheckGrammar` only asks that the root has a rule.  -/
theorem read_loopGrammar : read (some (str "<root> = <root>")) = some loopGrammar := by
  have hread : ∃ l, readLine empty (str "<root> = <root>") = some l ∧ l.generates = str "root" ∧
      l.grammar = empty.getOrCreateSymbol (str "root") ∧ l.parts = [.symbol (str "root") 0 []] := by
    refine ⟨_, rfl, ?_, rfl, ?_⟩ <;> decide +kernel
  obtain ⟨l, hl, hgenerates, hgrammar, hparts⟩ := hread
  have hrefers : l.grammar.getOrCreateSymbol (str "root") = empty.getOrCreateSymbol (str "root") := by
    obtain ⟨symbol, hsymbol⟩ := (defined_getOrCreateSymbol empty (str "root")).getSymbol
    rw [hgrammar, getOrCreateSymbol, if_pos (Option.isSome_iff_exists.2 ⟨symbol, hsymbol⟩)]
  rw [read_rootGrammar (by decide +kernel) (by decide +kernel) hl hgenerates hrefers, hparts]
  rfl

/-- However many levels there are, the only rule of the root needs one level more, since it
has the root itself as a part.  -/
theorem not_derivable_loopGrammar (levels : ℕ) : ¬ loopGrammar.Derivable levels (str "root") := by
  intro h
  induction levels with
  | zero => cases h
  | succ levels ih =>
      rcases h with ⟨hsymbol, hrepeat⟩ | ⟨hsymbol, -, hrule, -, hparts⟩
      · cases hsymbol
        cases hrepeat
      · cases hsymbol
        rename_i k rule
        cases k with
        | zero =>
            cases hrule
            exact ih (hparts 0 _ 0 [] rfl rfl)
        | succ k => cases hrule

/-- **An accepted grammar with a root that generates nothing.** Its one rule has the root as
its part, `CheckGrammar` finds nothing wrong with it, and every attempt to generate a tree
comes to the maximal depth, so `GenerateTreeNoFail` tries again for ever.  -/
theorem accepted_grammar_spins : ¬ ∀ (file : Bytes) (g : Grammar), read (some file) = some g →
    g.Defined (str "root") →
      ∃ draws tree rest, g.generateTreeNoFail (str "root") draws = .ok (tree, rest) := by
  intro hall
  have hroot : loopGrammar.Defined (str "root") := ⟨_, List.mem_singleton_self _, rfl⟩
  have hreturns := hall _ _ read_loopGrammar hroot
  exact not_derivable_loopGrammar _ ((noFail_returns_iff hroot).1 hreturns)

/-- The grammar with the lines `<root> = <a id=1>b<a id=1><repeat_a>`, `<a> = <a>` and
`<a> = x`. -/
def nestedGrammar : Grammar :=
  ⟨[⟨str "a", false, none, false,
      [⟨str "a", [.symbol (str "a") 0 []]⟩, ⟨str "a", [.string (str "x")]⟩]⟩,
    ⟨str "repeat_a", true, some (str "a"), false, []⟩,
    ⟨str "root", false, none, false,
      [⟨str "root", [.symbol (str "a") 1 [(str "id", str "1")], .string (str "b"),
        .symbol (str "a") 1 [(str "id", str "1")], .symbol (str "repeat_a") 0 []]⟩]⟩]⟩

/-- The three lines are read as this grammar; the repeat symbol was created when it was met.
-/
theorem read_nestedGrammar :
    read (some (str "<root> = <a id=1>b<a id=1><repeat_a>\n<a> = <a>\n<a> = x")) =
      some nestedGrammar := by
  decide +kernel

/-- Of the rules of `a` the second one ends. -/
theorem derivable_nestedGrammar (levels : ℕ) : nestedGrammar.Derivable (levels + 1) (str "a") := by
  refine @Derivable.rule _ levels _ _ 1 _ rfl rfl rfl (by decide) ?_
  intro i value id attributes hget
  cases i with
  | zero => cases hget
  | succ i => cases hget

/-- **A root with parts of every kind**: a symbol one of whose rules never ends, a string, a
copy of the symbol, and a repeat symbol.  The root is derivable, so its loop is left, and
what it leaves with is a conforming tree within the limit. -/
theorem generateTreeNoFail_returns_iff_nestedGrammar : ∃ draws tree rest,
    nestedGrammar.generateTreeNoFail (str "root") draws = .ok (tree, rest) ∧
      nestedGrammar.ConformingOf (str "root") tree ∧ DepthLimited tree := by
  have hderivable : nestedGrammar.Derivable (maxDepth + 1) (str "root") := by
    refine @Derivable.rule _ maxDepth _ _ 0 _ rfl rfl rfl (by decide) ?_
    intro i value id attributes hget hfind
    match i with
    | 0 =>
        cases hget
        exact derivable_nestedGrammar 99
    | 1 => cases hget
    | 2 =>
        -- the part before has the same id
        cases hget
        cases hfind
    | 3 =>
        cases hget
        exact @Derivable.repetition _ 99 _ _ rfl rfl
    | i + 4 => cases hget
  have hroot : nestedGrammar.Defined (str "root") :=
    ⟨_, List.mem_cons_of_mem _ (List.mem_cons_of_mem _ List.mem_cons_self), rfl⟩
  obtain ⟨hreturns, hends⟩ := generateTreeNoFail_returns_iff read_nestedGrammar hroot
  obtain ⟨draws, tree, rest, h⟩ := hreturns.2 hderivable
  rcases hends draws with ⟨tree', rest', h', hconforming, hlimited⟩ | hnone
  · exact ⟨draws, tree', rest', h', hconforming, hlimited⟩
  · rw [h] at hnone
    cases hnone

end Grammar
end Jackalope
