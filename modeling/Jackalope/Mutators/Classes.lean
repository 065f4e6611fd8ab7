/-
# The classes of mutators, and what they do to a sample

Every class of `mutator.h` that `BinaryFuzzer::CreateMutator` uses, with its `Mutate`: the
leaves change the sample, the others call their children.  A mutator is a tree of classes, its
state a tree of the same shape: the fields that change, and the context of the sample that is
being fuzzed.

What `Mutate` does to the fields was described for every draw and every answer of the leaves
by `Mutates`; here the answers come from the draws and from the sample.  Each call is one that
`Mutates` describes (`spec_mutates`), so what was shown of those calls holds of these.
-/

import Jackalope.Foundation.TreeFile
import Jackalope.Mutators.Deterministic
import Jackalope.Mutators.Overwrite
import Jackalope.Mutators.Results

namespace Jackalope
namespace Mutators

open Foundation Foundation.Consumer Foundation.Buffer

/-! ### Classes and fields -/

/-- The mutators without children that keep nothing between calls, with the parameters of
their constructors. -/
inductive Leaf
  | byteFlipMutator
  | arithmeticMutator
  | appendMutator (minAppend maxAppend : ℤ)
  | blockInsertMutator (minInsert maxInsert : ℤ)
  | blockFlipMutator (minBlockSize maxBlockSize : ℤ) (uniform : Bool)
  | blockDuplicateMutator (minBlockSize maxBlockSize minDuplicateCnt maxDuplicateCnt : ℤ)
  | interestingValueMutator (interestingValues : List Sample)
  /-- `displaced` is `RandReal() < displacement_p` for a draw. -/
  | spliceMutator (points : ℤ) (displaced : UInt32 → Bool)

/-- The classes of mutators. -/
inductive MutatorClass
  | leaf (leaf : Leaf)
  | deterministicByteFlipMutator
  | deterministicInterestingValueMutator (interestingValues : List Sample)
  | nRoundMutator (numRounds : ℕ)
  | mutatorSequence (restartEachRound restartOnHotOffset : Bool)
  | selectMutator
  /-- For each child, `p < sum` for a draw, where `sum` is that of the probabilities up to it. -/
  | pSelectMutator (belowSum : List (UInt32 → Bool))
  | repeatMutator
  | dtermininsticNondeterministicMutator (numRoundsDeterministic numRoundsNondeterministic : ℕ)
  | rangeMutator

/-- The class without what only the sample depends on. -/
def MutatorClass.kind : MutatorClass → Kind
  | .leaf _ => .leaf
  | .deterministicByteFlipMutator | .deterministicInterestingValueMutator _ => .baseDeterministicMutator
  | .nRoundMutator n => .nRoundMutator n
  | .mutatorSequence r h => .mutatorSequence r h
  | .selectMutator => .selectMutator
  | .pSelectMutator _ => .pSelectMutator
  | .repeatMutator => .repeatMutator
  | .dtermininsticNondeterministicMutator m n => .dtermininsticNondeterministicMutator m n
  | .rangeMutator => .rangeMutator

/-- The fields of a mutator that change, and its context for the sample that is fuzzed. -/
structure Fields extends MutatorState where
  /-- `last_num_repeats`. -/
  lastNumRepeats : ℕ
  /-- `context` of a `BaseDeterministicMutator`. -/
  context : BaseDeterministicContext
  deriving DecidableEq

/-- A mutator, with its children. -/
abbrev ClassTree := Foundation.Tree MutatorClass

/-- What is kept in a mutator and its children. -/
abbrev FieldsTree := Foundation.Tree Fields

/-- What a mutator is given besides the sample. -/
structure Surroundings where
  /-- `Sample::max_size`. -/
  maxSize : ℕ
  /-- `all_samples`. -/
  allSamples : List Sample
  /-- `SetRanges`: those of the entry that is fuzzed. -/
  ranges : List Range
  /-- `RandReal() < repeat_p` for a draw, with the probability that is adapted. -/
  repeats : UInt32 → Bool

/-- What a call of `Mutate` returns and leaves behind. -/
structure Answer where
  ret : Bool
  sample : Sample
  state : FieldsTree

/-- A call of `Mutate`. -/
abbrev Call := FieldsTree → Sample → Draws Answer

/-! ### `Mutate` -/

/-- `Mutate` of a leaf. -/
def Leaf.mutate (env : Surroundings) : Leaf → MutateSample
  | .byteFlipMutator => byteFlipMutate
  | .arithmeticMutator => arithmeticMutate
  | .appendMutator minAppend maxAppend => appendMutate env.maxSize minAppend maxAppend
  | .blockInsertMutator minInsert maxInsert => blockInsertMutate env.maxSize minInsert maxInsert
  | .blockFlipMutator minBlockSize maxBlockSize uniform =>
      blockFlipMutate minBlockSize maxBlockSize uniform
  | .blockDuplicateMutator minBlockSize maxBlockSize minDuplicateCnt maxDuplicateCnt =>
      blockDuplicateMutate env.maxSize minBlockSize maxBlockSize minDuplicateCnt maxDuplicateCnt
  | .interestingValueMutator interestingValues => interestingValueMutate interestingValues
  | .spliceMutator points displaced => spliceMutate env.maxSize points displaced env.allSamples

/-- `DeterministicByteFlipMutator::Mutate`. -/
def deterministicByteFlipMutate : Call := fun s inoutSample =>
  let (found, context) := s.label.context.getNextByteToMutate 256
  let s := .node { s.label with context } s.children
  match found with
  | none => pure ⟨false, inoutSample, s⟩
  | some (pos, value) => do
      let inoutSample :=
        if pos ≥ inoutSample.size then inoutSample.resize (wrap (pos + 1)) else inoutSample
      let bytes ← access (store (of inoutSample.bytes) pos (UInt8.ofNat value))
      let inoutSample ← setBytes bytes inoutSample.size
      pure ⟨true, inoutSample, s⟩

/-- `DeterministicInterestingValueMutator::Mutate`. -/
def deterministicInterestingValueMutate (interestingValues : List Sample) : Call := fun s inoutSample =>
  let (found, context) := s.label.context.getNextByteToMutate interestingValues.length
  let s := .node { s.label with context } s.children
  match found with
  | none => pure ⟨false, inoutSample, s⟩
  | some (pos, valueIndex) => do
      let interestingSample ← access interestingValues[valueIndex]?
      let newSize := wrap (pos + interestingSample.size)
      let inoutSample := if newSize > inoutSample.size then inoutSample.resize newSize else inoutSample
      let bytes ← access
        (memcpy (of inoutSample.bytes) pos (of interestingSample.bytes) 0 interestingSample.size)
      let inoutSample ← setBytes bytes inoutSample.size
      pure ⟨true, inoutSample, s⟩

/-- `child_mutators[i]->Mutate(...)`: the answer, the sample and the children afterwards. -/
def callChild (children : List Call) (i : ℕ) (us : List FieldsTree) (inoutSample : Sample) :
    Draws (Bool × Sample × List FieldsTree) := do
  let child ← access children[i]?
  let u ← access us[i]?
  let answer ← child u inoutSample
  pure (answer.ret, answer.sample, us.set i answer.state)

/-- `NRoundMutator::Mutate`. -/
def nRoundMutate (numRounds : ℕ) (children : List Call) : Call := fun s inoutSample =>
  if s.label.currentRound = numRounds then pure ⟨false, inoutSample, s⟩
  else do
    let (_, inoutSample, us) ← callChild children 0 s.children inoutSample
    pure ⟨true, inoutSample, .node { s.label with currentRound := s.label.currentRound + 1 } us⟩

/-- The loop of `MutatorSequence::Mutate` over the children from the current one on. -/
def sequenceLoop : List Call → Fields → List FieldsTree → Sample → Draws Answer
  | [], fields, us, inoutSample => pure ⟨false, inoutSample, .node { fields with ran := none } us⟩
  | child :: rest, fields, us, inoutSample => do
      let u ← access us[fields.currentMutatorIndex]?
      let answer ← child u inoutSample
      let us := us.set fields.currentMutatorIndex answer.state
      if answer.ret then
        pure ⟨true, answer.sample, .node { fields with ran := some fields.currentMutatorIndex } us⟩
      else
        sequenceLoop rest { fields with currentMutatorIndex := fields.currentMutatorIndex + 1 } us
          answer.sample

/-- `MutatorSequence::Mutate`. -/
def sequenceMutate (children : List Call) : Call := fun s inoutSample =>
  sequenceLoop (children.drop s.label.currentMutatorIndex) s.label s.children inoutSample

/-- Run the child that was selected. -/
def runSelected (children : List Call) (i : ℕ) : Call := fun s inoutSample => do
  let (ret, inoutSample, us) ← callChild children i s.children inoutSample
  pure ⟨ret, inoutSample, .node { s.label with last := some i, ran := if ret then some i else none } us⟩

/-- `SelectMutator::Mutate`. -/
def selectMutate (children : List Call) : Call := fun s inoutSample => do
  let i ← randMod children.length
  runSelected children i s inoutSample

/-- The loop of `PSelectMutator::Mutate`: the first child whose sum the draw is below, or the
last. -/
def pSelectLoop (r : UInt32) : List (UInt32 → Bool) → ℕ → Option ℕ
  | [], _ => none
  | below :: rest, i => if below r || rest.isEmpty then some i else pSelectLoop r rest (i + 1)

/-- `PSelectMutator::Mutate`. -/
def pSelectMutate (belowSum : List (UInt32 → Bool)) (children : List Call) : Call :=
  fun s inoutSample => do
    let r ← rand
    match pSelectLoop r belowSum 0 with
    | none => pure ⟨false, inoutSample, s⟩
    | some i => runSelected children i s inoutSample

/-- `RepeatMutator::Mutate`; what its loop changes is the number of repeats, the children and
the sample. -/
def repeatMutate (repeats : UInt32 → Bool) (children : List Call) : Call := fun s inoutSample => do
  let (ret, inoutSample, us) ← callChild children 0 s.children inoutSample
  if ret then
    loop Stop.noDraws (fun (lastNumRepeats, us, inoutSample) => do
      let r ← rand
      if repeats r then do
        let (_, inoutSample, us) ← callChild children 0 us inoutSample
        pure (Sum.inl (lastNumRepeats + 1, us, inoutSample))
      else pure (Sum.inr ⟨true, inoutSample, .node { s.label with lastNumRepeats } us⟩))
      (1, us, inoutSample)
  else pure ⟨false, inoutSample, .node { s.label with lastNumRepeats := 1 } us⟩

/-- `DtermininsticNondeterministicMutator::Mutate`, from the second comparison on. -/
def nondeterministicRound (m n : ℕ) (children : List Call) : Call := fun s inoutSample =>
  if s.label.currentRound < wrap (m + n) then do
    let (ret, inoutSample, us) ← callChild children 1 s.children inoutSample
    pure ⟨true, inoutSample, .node { s.label with
      currentRound := s.label.currentRound + 1, last := some 1,
      ran := if ret then some 1 else none } us⟩
  else pure ⟨false, inoutSample, .node { s.label with ran := none } s.children⟩

/-- `DtermininsticNondeterministicMutator::Mutate`. -/
def dtermininsticNondeterministicMutate (m n : ℕ) (children : List Call) : Call :=
  fun s inoutSample =>
    if s.label.currentRound < m then do
      let (ret, inoutSample, us) ← callChild children 0 s.children inoutSample
      if ret then
        pure ⟨true, inoutSample, .node { s.label with
          currentRound := s.label.currentRound + 1, last := some 0, ran := some 0 } us⟩
      else nondeterministicRound m n children (.node s.label us) inoutSample
    else nondeterministicRound m n children s inoutSample

/-- What `RangeMutator::Mutate` does with the part that it has mutated. -/
def putBack (range : Range) (inoutSample rangesample : Sample) : Draws Sample :=
  let newSize := wrap (range.rangeFrom + rangesample.size)
  let resized := if newSize > inoutSample.size then inoutSample.resize newSize else inoutSample
  copyInto resized range.rangeFrom rangesample.bytes

/-- `RangeMutator::Mutate`. -/
def rangeMutateChild (ranges : List Range) (children : List Call) : Call := fun s inoutSample =>
  if ranges = [] then do
    let (ret, inoutSample, us) ← callChild children 0 s.children inoutSample
    pure ⟨ret, inoutSample, .node s.label us⟩
  else do
    let i ← randMod ranges.length
    let range ← access ranges[i]?
    if inoutSample.size = 0 then do
      let (ret, inoutSample, us) ← callChild children 0 s.children inoutSample
      pure ⟨ret, inoutSample, .node s.label us⟩
    else do
      let (_, rangesample, us) ← callChild children 0 s.children
        (inoutSample.crop range.rangeFrom range.rangeTo)
      let inoutSample ← putBack range inoutSample rangesample
      pure ⟨true, inoutSample, .node s.label us⟩

/-- `Mutate` of a class whose children have theirs. -/
def MutatorClass.mutate (env : Surroundings) : MutatorClass → List Call → Call
  | .leaf l, _ => fun s inoutSample => do
      let (ret, inoutSample) ← l.mutate env inoutSample
      pure ⟨ret, inoutSample, s⟩
  | .deterministicByteFlipMutator, _ => deterministicByteFlipMutate
  | .deterministicInterestingValueMutator interestingValues, _ =>
      deterministicInterestingValueMutate interestingValues
  | .nRoundMutator n, children => nRoundMutate n children
  | .mutatorSequence _ _, children => sequenceMutate children
  | .selectMutator, children => selectMutate children
  | .pSelectMutator belowSum, children => pSelectMutate belowSum children
  | .repeatMutator, children => repeatMutate env.repeats children
  | .dtermininsticNondeterministicMutator m n, children =>
      dtermininsticNondeterministicMutate m n children
  | .rangeMutator, children => rangeMutateChild env.ranges children

/-- `Mutate`. -/
def mutate (env : Surroundings) : ClassTree → Call := Tree.fold (MutatorClass.mutate env)

/-- A mutator is called with the `Mutate` of its children.  -/
theorem mutate_node (env : Surroundings) (c : MutatorClass) (ts : List ClassTree) :
    mutate env (.node c ts) = c.mutate env (ts.map (mutate env)) := Tree.fold_node _ c ts

/-! ### Around `Mutate` -/

/-- `InitRound`; the state has the contexts of the sample. -/
def initRoundFields : MutatorClass → Fields → Fields
  | .nRoundMutator _, fields | .dtermininsticNondeterministicMutator _ _, fields =>
      { fields with currentRound := 0 }
  | .mutatorSequence restartEachRound _, fields =>
      if restartEachRound then { fields with currentMutatorIndex := 0 } else fields
  | _, fields => fields

/-- `AddHotOffset`. -/
def addHotOffsetFields (offset : ℕ) : MutatorClass → Fields → Fields
  | .deterministicByteFlipMutator, fields | .deterministicInterestingValueMutator _, fields =>
      { fields with context := fields.context.addHotOffset offset }
  | .mutatorSequence _ restartOnHotOffset, fields =>
      if restartOnHotOffset then { fields with currentMutatorIndex := 0 } else fields
  | _, fields => fields

/-- Both go through the whole mutator. -/
def updateFields (f : MutatorClass → Fields → Fields) : ClassTree → FieldsTree → FieldsTree :=
  Tree.fold fun c children s =>
    .node (f c s.label) (List.zipWith (fun child u => child u) children s.children)

/-! ### One shape -/

/-- How a class is put together: its children, and what its parameters must be. -/
def MutatorClass.Ok (n : ℕ) (c : MutatorClass) : Prop :=
  c.kind.arity n = true ∧
    match c with
    | .pSelectMutator belowSum => belowSum.length = n
    | .dtermininsticNondeterministicMutator m n => m + n < 2 ^ 64
    | _ => True

/-- All classes of the mutator are put together so. -/
abbrev WellFormed (t : ClassTree) : Prop := t.Follows fun c cs => c.Ok cs.length

/-- The tree of classes as one of kinds. -/
def kinds : ClassTree → Mutator := Tree.fold fun c ts => .node c.kind ts

/-- What `Mutates` says something about. -/
def states : FieldsTree → State := Tree.fold fun fields us => .node fields.toMutatorState us

/-- The tree of the kinds, node by node.  -/
@[simp] theorem kinds_node (c : MutatorClass) (ts : List ClassTree) :
    kinds (.node c ts) = .node c.kind (ts.map kinds) := Tree.fold_node _ c ts

/-- The tree of what later decides where a result goes, node by node.  -/
@[simp] theorem states_node (fields : Fields) (us : List FieldsTree) :
    states (.node fields us) = .node fields.toMutatorState (us.map states) := Tree.fold_node _ fields us

/-- The state has the shape of the mutator. -/
abbrev StateOf (t : ClassTree) (s : FieldsTree) : Prop := Tree.Matches (fun _ _ => True) t s

/-- A tree of mutators is well formed if its root has as many children as its class needs,
and these are well formed.  -/
theorem WellFormed.node {c : MutatorClass} {ts : List ClassTree} (h : WellFormed (.node c ts)) :
    c.Ok ts.length ∧ ∀ t ∈ ts, WellFormed t := by
  have := Tree.follows_node.1 h
  rwa [List.length_map] at this

/-- The only child of a mutator that has one, and its state. -/
theorem forall₂_singleton {R : ClassTree → FieldsTree → Prop} {ts : List ClassTree}
    {us : List FieldsTree} (h : List.Forall₂ R ts us) (hlength : ts.length = 1) :
    ∃ t u, ts = [t] ∧ us = [u] ∧ R t u := by
  obtain ⟨t, rfl⟩ := List.length_eq_one_iff.1 hlength
  obtain ⟨u, us, htu, hnil, rfl⟩ := List.forall₂_cons_left_iff.1 h
  rw [List.forall₂_nil_left_iff.1 hnil]
  exact ⟨t, u, rfl, rfl, htu⟩

/-- The states of the children after one of them has changed its own. -/
theorem forall₂_set {R : ClassTree → FieldsTree → Prop} {ts : List ClassTree}
    {us : List FieldsTree} {i : ℕ} {t : ClassTree} {u : FieldsTree}
    (h : List.Forall₂ R ts us) (ht : ts[i]? = some t) (hu : R t u) : List.Forall₂ R ts (us.set i u) := by
  induction h generalizing i with
  | nil => exact .nil
  | @cons t' u' ts us htu hrest ih =>
      rcases i with _ | i
      · cases ht
        exact .cons hu hrest
      · exact .cons htu (ih ht)

/-- Each child has a state. -/
theorem forall₂_getElem? {R : ClassTree → FieldsTree → Prop} {ts : List ClassTree}
    {us : List FieldsTree} {i : ℕ} {t : ClassTree} (h : List.Forall₂ R ts us)
    (ht : ts[i]? = some t) : ∃ u, us[i]? = some u ∧ R t u := by
  induction h generalizing i with
  | nil => cases ht
  | @cons t' u' ts us htu hrest ih =>
      rcases i with _ | i
      · cases ht
        exact ⟨u', rfl, htu⟩
      · exact ih ht

/-! ### Rules -/

/-- **A call of a child** leaves behind what the child does: its answer and its sample, and
its new state in the place of the old one.  -/
theorem spec_callChild {env : Surroundings} {ts : List ClassTree} {us : List FieldsTree}
    {i : ℕ} {t : ClassTree} {u : FieldsTree} {sample : Sample} {Q : Answer → Prop}
    {E : Stop → Prop} (ht : ts[i]? = some t) (hu : us[i]? = some u)
    (h : Spec (mutate env t u sample) Q E) :
    Spec (callChild (ts.map (mutate env)) i us sample)
      (fun r => ∃ u', Q ⟨r.1, r.2.1, u'⟩ ∧ r.2.2 = us.set i u') E := by
  rw [callChild, List.getElem?_map, ht, hu]
  show Spec (mutate env t u sample >>= fun answer =>
    pure (answer.ret, answer.sample, us.set i answer.state)) _ E
  refine h.bind fun answer hanswer => Spec.pure ?_
  exact ⟨answer.state, hanswer, rfl⟩

/-- The child that `PSelectMutator` runs is one that it has: where rounding leaves the sum
of the probabilities below what was drawn, it is the last one.  -/
theorem pSelectLoop_lt {r : UInt32} {belowSum : List (UInt32 → Bool)} {i : ℕ} (hne : belowSum ≠ []) :
    ∃ j, pSelectLoop r belowSum i = some j ∧ j < i + belowSum.length := by
  induction belowSum generalizing i with
  | nil => exact absurd rfl hne
  | cons below rest ih =>
      rw [pSelectLoop]
      split
      · exact ⟨i, rfl, by rw [List.length_cons]; omega⟩
      · rename_i hnext
        have hrest : rest ≠ [] := by
          rintro rfl
          rw [List.isEmpty_nil, Bool.or_true] at hnext
          exact hnext rfl
        obtain ⟨j, hj, hlt⟩ := ih (i := i + 1) hrest
        exact ⟨j, hj, by rw [List.length_cons]; omega⟩

/-! ### Each call is one that `Mutates` describes -/

/-- The call keeps the shape, and `Mutates` describes it. -/
def Described (t : ClassTree) (s : FieldsTree) (answer : Answer) : Prop :=
  StateOf t answer.state ∧
    ∃ d, Mutates (kinds t) (states s) ⟨answer.ret, d⟩ (states answer.state)

/-- What a call of the child `i` leaves behind, if `Mutates` describes it. -/
def ChildDescribed (ts : List ClassTree) (us : List FieldsTree) (i : ℕ)
    (t : ClassTree) (r : Bool × Sample × List FieldsTree) : Prop :=
  List.Forall₂ StateOf ts r.2.2 ∧ ∃ u u' d, us[i]? = some u ∧ r.2.2 = us.set i u' ∧
    Mutates (kinds t) (states u) ⟨r.1, d⟩ (states u')

section Described

variable {env : Surroundings} {ts : List ClassTree} {us : List FieldsTree}
  {fields : Fields} {sample : Sample} (hus : List.Forall₂ StateOf ts us)
  (hchild : ∀ t ∈ ts, ∀ u sample, StateOf t u →
    Spec (mutate env t u sample) (Described t u) fun _ => True)

include hus hchild

/-- **One child is called**: its state changes as its own description says, and the states
of the others stay.  -/
theorem spec_childDescribed {i : ℕ} {t : ClassTree} (ht : ts[i]? = some t) :
    Spec (callChild (ts.map (mutate env)) i us sample) (ChildDescribed ts us i t) fun _ => True := by
  obtain ⟨u, hu, htu⟩ := forall₂_getElem? hus ht
  refine (spec_callChild ht hu (hchild t (List.mem_of_getElem? ht) u sample htu)).mono ?_
  rintro ⟨ret, sample', us'⟩ ⟨u', ⟨hshape, d, hmutates⟩, hset⟩
  obtain rfl : us' = us.set i u' := hset
  exact ⟨forall₂_set hus ht hshape, u, u', d, hu, rfl, hmutates⟩

/-- The children from the current one on, as the loop goes through them: a child that
answers `true` ends the call, one that answers `false` makes the next the current one.  -/
theorem spec_sequenceLoop {r h : Bool} {rest : List ClassTree}
    (hrest : ts.drop fields.currentMutatorIndex = rest) :
    Spec (sequenceLoop (rest.map (mutate env)) fields us sample)
      (Described (.node (.mutatorSequence r h) ts) (.node fields us)) fun _ => True := by
  induction rest generalizing fields us sample with
  | nil =>
      refine Spec.pure ⟨.node trivial hus, false, ?_⟩
      rw [kinds_node, states_node, states_node]
      refine Mutates.sequenceEnd ?_
      rw [List.length_map]
      exact List.drop_eq_nil_iff.1 hrest
  | cons t rest ih =>
      have ht : ts[fields.currentMutatorIndex]? = some t := by
        rw [← List.head?_drop, hrest]
        rfl
      have hnext : ts.drop (fields.currentMutatorIndex + 1) = rest := by
        rw [← List.drop_drop, hrest]
        rfl
      obtain ⟨u, hu, htu⟩ := forall₂_getElem? hus ht
      have hkind : (ts.map kinds)[fields.currentMutatorIndex]? = some (kinds t) := by
        rw [List.getElem?_map, ht]
        rfl
      have hstate : (us.map states)[fields.currentMutatorIndex]? = some (states u) := by
        rw [List.getElem?_map, hu]
        rfl
      rw [List.map_cons, sequenceLoop, hu, access_some, pure_bind]
      refine (hchild t (List.mem_of_getElem? ht) u sample htu).bind fun answer hanswer => ?_
      obtain ⟨hshape, d, hmutates⟩ := hanswer
      have hus' := forall₂_set hus ht hshape
      dsimp only
      split
      · rename_i hret
        rw [hret] at hmutates
        refine Spec.pure ⟨.node trivial hus', d, ?_⟩
        rw [kinds_node, states_node, states_node, List.map_set]
        exact Mutates.sequence hkind hstate hmutates
      · rename_i hret
        rw [Bool.not_eq_true] at hret
        rw [hret] at hmutates
        refine (ih hus' hnext).mono ?_
        rintro answer' ⟨hshape', d', hmutates'⟩
        refine ⟨hshape', d', ?_⟩
        rw [kinds_node, states_node, List.map_set] at hmutates'
        rw [kinds_node, states_node]
        exact Mutates.sequenceNext hkind hstate hmutates hmutates'

/-- The two mutators that select a child call it, and note which one it was, so that
`NotifyResult` is passed on to the child that made the sample.  -/
theorem spec_runSelected {c : MutatorClass} {i : ℕ}
    (hc : c.kind = .selectMutator ∨ c.kind = .pSelectMutator) (hi : i < ts.length) :
    Spec (runSelected (ts.map (mutate env)) i (.node fields us) sample)
      (Described (.node c ts) (.node fields us)) fun _ => True := by
  have ht := List.getElem?_eq_getElem hi
  refine (spec_childDescribed hus hchild ht).bind ?_
  rintro ⟨ret, sample', us'⟩ ⟨hus', u, u', d, hu, hset, hmutates⟩
  obtain rfl : us' = us.set i u' := hset
  refine Spec.pure ⟨.node trivial hus', d, ?_⟩
  rw [kinds_node, states_node, states_node, List.map_set]
  refine Mutates.select hc ?_ ?_ hmutates
  · rw [List.getElem?_map, ht]
    rfl
  · rw [List.getElem?_map, hu]
    rfl

end Described

section OnlyChild

variable {env : Surroundings} {t : ClassTree} {u : FieldsTree} {fields : Fields}
  {sample : Sample} (htu : StateOf t u)
  (hchild : ∀ u sample, StateOf t u → Spec (mutate env t u sample) (Described t u) fun _ => True)

include htu hchild

/-- A mutator with one child calls it. -/
theorem spec_onlyChild :
    Spec (callChild ([t].map (mutate env)) 0 [u] sample)
      (fun r => ∃ u', r.2.2 = [u'] ∧ StateOf t u' ∧
        ∃ d, Mutates (kinds t) (states u) ⟨r.1, d⟩ (states u')) fun _ => True := by
  refine (spec_callChild rfl rfl (hchild u sample htu)).mono ?_
  rintro ⟨ret, sample', us'⟩ ⟨u', ⟨hshape, d, hmutates⟩, hset⟩
  exact ⟨u', hset, hshape, d, hmutates⟩

/-- `NRoundMutator` calls its child as long as there are rounds, and answers `false` from
then on.  -/
theorem spec_nRoundMutate {n : ℕ} :
    Spec (nRoundMutate n ([t].map (mutate env)) (.node fields [u]) sample)
      (Described (.node (.nRoundMutator n) [t]) (.node fields [u])) fun _ => True := by
  rw [nRoundMutate]
  split
  · rename_i hdone
    exact Spec.pure ⟨.node trivial (.cons htu .nil), false, Mutates.nRoundDone hdone⟩
  · rename_i hnext
    refine (spec_onlyChild htu hchild).bind ?_
    rintro ⟨ret, sample', us'⟩ ⟨u', rfl, hshape, d, hmutates⟩
    exact Spec.pure ⟨.node trivial (.cons hshape .nil), _, Mutates.nRound hnext hmutates⟩

/-- `RepeatMutator` calls its child at least once, and again as often as the draws say;
after a first call that answers `false` it does not.  -/
theorem spec_repeatMutate {repeats : UInt32 → Bool} :
    Spec (repeatMutate repeats ([t].map (mutate env)) (.node fields [u]) sample)
      (Described (.node .repeatMutator [t]) (.node fields [u])) fun _ => True := by
  rw [repeatMutate]
  refine (spec_onlyChild htu hchild).bind ?_
  rintro ⟨ret, sample', us'⟩ ⟨u', rfl, hshape, d, hmutates⟩
  dsimp only
  split
  · rename_i hret
    rw [hret] at hmutates
    -- so far the calls of the child are described as those of a mutator that has ended here
    refine Spec.loop (fun x => ∃ u₁, x.2.1 = [u₁] ∧ StateOf t u₁ ∧
      ∃ d, Mutates (.node .repeatMutator [kinds t]) (.node fields.toMutatorState [states u]) ⟨true, d⟩
        (.node fields.toMutatorState [states u₁])) trivial ?_
      ⟨u', rfl, hshape, d, Mutates.repeatOnce hmutates⟩
    rintro ⟨n, us, sample₁⟩ ⟨u₁, rfl, hshape₁, d₁, hmutates₁⟩
    refine (Spec.any rand).bind fun r _ => ?_
    dsimp only
    split
    · refine (spec_onlyChild hshape₁ hchild).bind ?_
      rintro ⟨ret₂, sample₂, us₂⟩ ⟨u₂, rfl, hshape₂, d₂, hmutates₂⟩
      exact Spec.pure ⟨u₂, rfl, hshape₂, _, Mutates.repeatAgain hmutates₁ hmutates₂⟩
    · exact Spec.pure ⟨.node trivial (.cons hshape₁ .nil), d₁, hmutates₁⟩
  · rename_i hret
    rw [Bool.not_eq_true] at hret
    rw [hret] at hmutates
    exact Spec.pure ⟨.node trivial (.cons hshape .nil), false, Mutates.repeatFalse hmutates⟩

/-- Where the whole sample is mutated, the answer is that of the child. -/
theorem spec_wholeSample :
    Spec (callChild ([t].map (mutate env)) 0 [u] sample >>= fun r =>
        pure ⟨r.1, r.2.1, .node fields r.2.2⟩)
      (Described (.node .rangeMutator [t]) (.node fields [u])) fun _ => True := by
  refine (spec_onlyChild htu hchild).bind ?_
  rintro ⟨ret, sample', us'⟩ ⟨u', rfl, hshape, d, hmutates⟩
  exact Spec.pure ⟨.node trivial (.cons hshape .nil), d, Mutates.range hmutates⟩

/-- `RangeMutator` calls its child on the sample that was cropped, or on the whole sample.
-/
theorem spec_rangeMutateChild {ranges : List Range} :
    Spec (rangeMutateChild ranges ([t].map (mutate env)) (.node fields [u]) sample)
      (Described (.node .rangeMutator [t]) (.node fields [u])) fun _ => True := by
  rw [rangeMutateChild]
  split
  · exact spec_wholeSample htu hchild
  refine (Spec.any _).bind fun i _ => (Spec.any _).bind fun range _ => ?_
  split
  · exact spec_wholeSample htu hchild
  refine (spec_onlyChild htu hchild).bind ?_
  rintro ⟨ret, part, us'⟩ ⟨u', rfl, hshape, d, hmutates⟩
  refine (Spec.any _).bind fun sample' _ => ?_
  exact Spec.pure ⟨.node trivial (.cons hshape .nil), _, Mutates.rangeCropped hmutates⟩

end OnlyChild

section TwoChildren

variable {env : Surroundings} {t t' : ClassTree} {u v : FieldsTree} {fields : Fields}
  {sample : Sample} (htu : StateOf t u) (htv : StateOf t' v)
  (hchild : ∀ u sample, StateOf t u → Spec (mutate env t u sample) (Described t u) fun _ => True)
  (hchild' : ∀ v sample, StateOf t' v → Spec (mutate env t' v sample) (Described t' v) fun _ => True)

include htu htv hchild' in
/-- The second part of `DtermininsticNondeterministicMutator`, behind a call of the first
child that answered `false` or without one: the second child is called as long as there are
rounds left.  -/
theorem spec_nondeterministicRound {m n : ℕ} (hlt : m + n < 2 ^ 64) {u₀ : FieldsTree}
    (hbefore : fields.currentRound < m → ∃ d, Mutates (kinds t) (states u₀) ⟨false, d⟩ (states u))
    (hsame : m ≤ fields.currentRound → u₀ = u) :
    Spec (nondeterministicRound m n ([t, t'].map (mutate env)) (.node fields [u, v]) sample)
      (Described (.node (.dtermininsticNondeterministicMutator m n) [t, t']) (.node fields [u₀, v]))
      fun _ => True := by
  rw [nondeterministicRound, wrap_of_lt hlt]
  split
  · rename_i hround
    refine (spec_callChild rfl rfl (hchild' v sample htv)).bind ?_
    rintro ⟨ret, sample', us'⟩ ⟨v', ⟨hshape, d, hmutates⟩, hset⟩
    obtain rfl : us' = [u, v'] := hset
    refine Spec.pure ⟨.node trivial (.cons htu (.cons hshape .nil)), !ret || d, ?_⟩
    by_cases hm : fields.currentRound < m
    · obtain ⟨d₀, hmutates₀⟩ := hbefore hm
      exact Mutates.nondeterministicInstead hm hmutates₀ hmutates
    · obtain rfl := hsame (Nat.not_lt.1 hm)
      exact Mutates.nondeterministic (Nat.not_lt.1 hm) hround hmutates
  · rename_i hround
    obtain rfl := hsame (by
      have hround' : ¬ fields.currentRound < m + n := hround
      omega)
    exact Spec.pure ⟨.node trivial (.cons htu (.cons htv .nil)), false,
      Mutates.roundsDone (Nat.not_lt.1 hround)⟩

include htu htv hchild hchild' in
/-- `DtermininsticNondeterministicMutator` calls its first child for its rounds, and goes on
with the second one when these are over or the first child answers `false`. -/
theorem spec_dtermininsticNondeterministicMutate {m n : ℕ} (hlt : m + n < 2 ^ 64) :
    Spec (dtermininsticNondeterministicMutate m n ([t, t'].map (mutate env)) (.node fields [u, v]) sample)
      (Described (.node (.dtermininsticNondeterministicMutator m n) [t, t']) (.node fields [u, v]))
      fun _ => True := by
  rw [dtermininsticNondeterministicMutate]
  split
  · rename_i hround
    refine (spec_callChild rfl rfl (hchild u sample htu)).bind ?_
    rintro ⟨ret, sample', us'⟩ ⟨u', ⟨hshape, d, hmutates⟩, hset⟩
    obtain rfl : us' = [u', v] := hset
    have hmutates' : Mutates (kinds t) (states u) ⟨ret, d⟩ (states u') := hmutates
    dsimp only
    split
    · rename_i hret
      rw [hret] at hmutates'
      exact Spec.pure ⟨.node trivial (.cons hshape (.cons htv .nil)), d,
        Mutates.deterministic hround hmutates'⟩
    · rename_i hret
      rw [Bool.not_eq_true] at hret
      rw [hret] at hmutates'
      exact spec_nondeterministicRound hshape htv hchild' hlt (fun _ => ⟨d, hmutates'⟩)
        fun hle => absurd hround (Nat.not_lt.2 hle)
  · rename_i hround
    exact spec_nondeterministicRound htu htv hchild' hlt (fun h => absurd h hround) fun _ => rfl

end TwoChildren

/-- A mutator without children may answer anything, and only its context changes. -/
theorem described_leaf {c : MutatorClass} {ts : List ClassTree} {us : List FieldsTree}
    {fields fields' : Fields} (hus : List.Forall₂ StateOf ts us) (hc : c.kind.isLeaf = true)
    (hsame : fields'.toMutatorState = fields.toMutatorState) (ret : Bool) (sample : Sample) :
    Described (.node c ts) (.node fields us) ⟨ret, sample, .node fields' us⟩ := by
  refine ⟨.node trivial hus, false, ?_⟩
  rw [kinds_node, states_node, states_node, hsame]
  exact Mutates.leaf ret hc

/-- The deterministic byte flip changes its context only; it has no children whose states it
could change.  -/
theorem spec_deterministicByteFlipMutate {ts : List ClassTree} {us : List FieldsTree}
    {fields : Fields} {sample : Sample} (hus : List.Forall₂ StateOf ts us) :
    Spec (deterministicByteFlipMutate (.node fields us) sample)
      (Described (.node .deterministicByteFlipMutator ts) (.node fields us)) fun _ => True := by
  rw [deterministicByteFlipMutate]
  dsimp only [Tree.label_node, Tree.children_node]
  split
  · exact Spec.pure (described_leaf hus rfl rfl _ _)
  · refine (Spec.any _).bind fun bytes _ => (Spec.any _).bind fun sample' _ => ?_
    exact Spec.pure (described_leaf hus rfl rfl _ _)

/-- Nor has the deterministic mutator of interesting values.  -/
theorem spec_deterministicInterestingValueMutate {ts : List ClassTree}
    {us : List FieldsTree} {fields : Fields} {sample : Sample} {values : List Sample}
    (hus : List.Forall₂ StateOf ts us) :
    Spec (deterministicInterestingValueMutate values (.node fields us) sample)
      (Described (.node (.deterministicInterestingValueMutator values) ts) (.node fields us))
      fun _ => True := by
  rw [deterministicInterestingValueMutate]
  dsimp only [Tree.label_node, Tree.children_node]
  split
  · exact Spec.pure (described_leaf hus rfl rfl _ _)
  · refine (Spec.any _).bind fun value _ => (Spec.any _).bind fun bytes _ => ?_
    refine (Spec.any _).bind fun sample' _ => ?_
    exact Spec.pure (described_leaf hus rfl rfl _ _)

/-- **Each call of `Mutate` is one that `Mutates` describes**, whatever it draws.  By
induction on the tree of mutators, with one case for each class that has children.  -/
theorem spec_mutates {env : Surroundings} {t : ClassTree} (ht : WellFormed t) {s : FieldsTree}
    (hs : StateOf t s) (sample : Sample) :
    Spec (mutate env t s sample) (Described t s) fun _ => True := by
  induction t using Tree.induction generalizing s sample with
  | h c ts ih =>
      obtain ⟨⟨harity, hparams⟩, hts⟩ := ht.node
      obtain ⟨fields, us⟩ := s
      obtain ⟨-, hus⟩ := Tree.matches_node.1 hs
      have hchild : ∀ t ∈ ts, ∀ u sample, StateOf t u →
          Spec (mutate env t u sample) (Described t u) fun _ => True :=
        fun t hmem u sample hu => ih t hmem (hts t hmem) hu sample
      rw [mutate_node]
      cases c with
      | leaf l =>
          exact (Spec.any _).bind fun r _ => Spec.pure (described_leaf hus rfl rfl _ _)
      | deterministicByteFlipMutator => exact spec_deterministicByteFlipMutate hus
      | deterministicInterestingValueMutator values =>
          exact spec_deterministicInterestingValueMutate hus
      | nRoundMutator n =>
          obtain ⟨t, u, rfl, rfl, htu⟩ := forall₂_singleton hus (eq_of_beq harity)
          exact spec_nRoundMutate htu (hchild t List.mem_cons_self)
      | mutatorSequence r h =>
          rw [MutatorClass.mutate, sequenceMutate, ← List.map_drop]
          exact spec_sequenceLoop hus hchild rfl
      | selectMutator =>
          have hpos : 0 < (ts.map (mutate env)).length := by
            rw [List.length_map]
            exact of_decide_eq_true harity
          refine ((spec_randMod hpos).mono_error (F := fun _ => True) fun _ _ => trivial).bind ?_
          intro i hi
          rw [List.length_map] at hi
          exact spec_runSelected hus hchild (Or.inl rfl) hi
      | pSelectMutator belowSum =>
          have hlength : belowSum.length = ts.length := hparams
          have hpos : 0 < ts.length := of_decide_eq_true harity
          refine (Spec.any rand).bind fun r _ => ?_
          obtain ⟨i, hpick, hi⟩ := @pSelectLoop_lt r belowSum 0 (List.length_pos_iff.1 (by omega))
          rw [hpick]
          exact spec_runSelected hus hchild (Or.inr rfl) (by omega)
      | repeatMutator =>
          obtain ⟨t, u, rfl, rfl, htu⟩ := forall₂_singleton hus (eq_of_beq harity)
          exact spec_repeatMutate htu (hchild t List.mem_cons_self)
      | dtermininsticNondeterministicMutator m n =>
          obtain ⟨t, t', rfl⟩ := List.length_eq_two.1 (eq_of_beq harity)
          obtain ⟨u, us₁, htu, hus₁, rfl⟩ := List.forall₂_cons_left_iff.1 hus
          obtain ⟨v, us₂, htv, hus₂, rfl⟩ := List.forall₂_cons_left_iff.1 hus₁
          obtain rfl := List.forall₂_nil_left_iff.1 hus₂
          exact spec_dtermininsticNondeterministicMutate htu htv (hchild t List.mem_cons_self)
            (hchild t' (List.mem_cons_of_mem _ List.mem_cons_self)) hparams
      | rangeMutator =>
          obtain ⟨t, u, rfl, rfl, htu⟩ := forall₂_singleton hus (eq_of_beq harity)
          exact spec_rangeMutateChild htu (hchild t List.mem_cons_self)

end Mutators
end Jackalope
