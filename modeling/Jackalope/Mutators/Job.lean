/-
# The mutator of a fuzzer, and a sample that is fuzzed

`BinaryFuzzer::CreateMutator` (`main.cpp`, lines 36-130) puts a mutator together, and `FuzzJob`
(`fuzzer.cpp`, lines 717-772) uses it on a sample of the corpus.  The sample may be taken up many
times, by any thread: the contexts stay with the sample, and what else is in a thread's mutator
may be anything, because `InitRound` sets what matters.

The mutator keeps to its samples in every such run (`job_fits`), and a job asks it for as many
samples as `-iterations_per_round` says, unless it is broken off (`job_rounds`).
-/

import Jackalope.Mutators.Safety
import Jackalope.SampleTrie

namespace Jackalope
namespace Mutators

open Foundation Foundation.Consumer

/-! ### `CreateMutator` -/

/-- A value of `k` bytes that is stored as it is, and one that is stored the other way round. -/
def bothOrders (k value : ℕ) : List ℕ := [value, flipEndian k value]

/-- The array `M` of `AddDefaultInterestingValues`. -/
def interestingDivisors : List ℕ :=
  [2, 3, 4, 6, 8, 10, 12, 16, 24, 32, 40, 48, 56, 64, 72, 80, 88, 96, 104, 112, 120, 128, 136, 144, 152,
    160, 168, 176, 184, 192, 200, 208, 216, 224, 232, 240, 248, 256]

/-- The array `N` of `AddDefaultInterestingValues`. -/
def interestingDifferences : List ℕ := [1, 2, 3, 4, 6, 8, 10, 12, 16, 32, 64, 128, 256]

/-- `Mutator::AddDefaultInterestingValues`, where `T` has `k` bytes. -/
def addDefaultInterestingValues (k : ℕ) : List Sample :=
  (0 :: (List.range (k * 8)).map (2 ^ ·) ++
    interestingDivisors.flatMap (fun m => bothOrders k (((256 ^ k - 1) / m + 1) % 256 ^ k)) ++
    interestingDifferences.flatMap fun n => bothOrders k ((256 ^ k - n) % 256 ^ k)).map
      fun value => Sample.init (toLE k value)

/-- The default values of `InterestingValueMutator` and `DeterministicInterestingValueMutator`. -/
def defaultInterestingValues : List Sample := addDefaultInterestingValues 2 ++ addDefaultInterestingValues 4

/-- The options that `CreateMutator` reads. -/
structure BinaryOptions where
  /-- `-deterministic_mutations`, or that `-server` is not there. -/
  useDeterministicMutations : Bool
  deterministicOnly : Bool
  /-- `-iterations_per_round`, an `int`. -/
  nrounds : ℕ
  /-- The values of `-dict`. -/
  dictionary : Option (List Sample)
  keepSamplesInMemory : Bool
  trackRanges : Bool

/-- The mutators that `PSelectMutator` selects from. -/
def BinaryOptions.leaves (o : BinaryOptions) : List Leaf :=
  [.byteFlipMutator, .arithmeticMutator, .appendMutator 1 128, .blockInsertMutator 1 128,
    .blockFlipMutator 2 16 false, .blockFlipMutator 16 64 false, .blockFlipMutator 1 64 true,
    .blockDuplicateMutator 1 128 1 8, .blockDuplicateMutator 1 16 1 64,
    .interestingValueMutator (o.dictionary.getD defaultInterestingValues)] ++
  if o.keepSamplesInMemory then [.spliceMutator 1 below50, .spliceMutator 2 below50] else []

/-- `p < sum` for a draw, as IEEE double arithmetic has it for the probabilities of `main.cpp`. -/
def BinaryOptions.belowSum (o : BinaryOptions) : List (UInt32 → Bool) :=
  (if o.keepSamplesInMemory then
    [1717986918, 2147483648, 2576980377, 2791728742, 3006477107, 3221225472, 3435973836, 3543348019,
      3650722201, 3865470566, 4080218931, 4294967295]
  else
    [1908874354, 2386092942, 2863311530, 3101920825, 3340530119, 3579139413, 3817748707, 3937053354,
      4056358001, 4294967295]).map fun bound r => decide (r.toNat < bound)

/-- `repeater`: some mutations, of one range if ranges are tracked. -/
def BinaryOptions.repeater (o : BinaryOptions) : ClassTree :=
  let pselect := .node (.pSelectMutator o.belowSum) (o.leaves.map fun l => .node (.leaf l) [])
  .node .repeatMutator [if o.trackRanges then .node .rangeMutator [pselect] else pselect]

/-- `deterministic_sequence`. -/
def deterministicSequence : ClassTree :=
  .node (.mutatorSequence false true) [.node .deterministicByteFlipMutator [],
    .node (.deterministicInterestingValueMutator defaultInterestingValues) []]

/-- Whether there are deterministic mutations. -/
def BinaryOptions.deterministic (o : BinaryOptions) : Bool :=
  o.useDeterministicMutations || o.deterministicOnly

/-- `deterministic_rounds`. -/
def BinaryOptions.deterministicRounds (o : BinaryOptions) : ℕ :=
  if o.deterministicOnly then o.nrounds else o.nrounds / 2

/-- `BinaryFuzzer::CreateMutator`. -/
def createMutator (o : BinaryOptions) : ClassTree :=
  if o.deterministic then
    .node (.dtermininsticNondeterministicMutator o.deterministicRounds (o.nrounds - o.deterministicRounds))
      [deterministicSequence, o.repeater]
  else .node (.nRoundMutator o.nrounds) [o.repeater]

/-- The options are those of a command line: the number of rounds is an `int`, and a dictionary
has values that are not empty. -/
structure BinaryOptions.Ok (o : BinaryOptions) : Prop where
  nrounds : o.nrounds < 2 ^ 31
  dictionary : ∀ values, o.dictionary = some values →
    values.length < 2 ^ 31 ∧ ∀ value ∈ values, 0 < value.size

/-! ### A sample that is fuzzed -/

/-- A mutator that has not been used, with the contexts of a new sample. -/
def createState : ClassTree → FieldsTree :=
  Tree.fold fun _ us => .node ⟨⟨0, 0, none, none⟩, 0, .empty⟩ us

/-- The contexts of a sample, in the mutators of two threads. -/
structure SameContext (fields fields' : Fields) : Prop where
  currentMutatorIndex : fields'.currentMutatorIndex = fields.currentMutatorIndex
  context : fields'.context = fields.context

/-- What happens to the contexts of a sample. -/
inductive FuzzEvent
  /-- A thread takes the sample up. -/
  | initRound
  | mutate (ret : Bool) (sample : Sample)
  | addHotOffset (offset : ℕ)

/-- One step; `entry` is the sample, and each mutation starts from it.  A hot offset is where
another sample first differs, so it is no larger than the size. -/
inductive FuzzStep (t : ClassTree) (given : Surroundings → Prop) (entry : Sample) :
    FieldsTree → FuzzEvent → FieldsTree → Prop
  | initRound {s s'} : Tree.Matches SameContext s s' →
      FuzzStep t given entry s .initRound (updateFields initRoundFields t s')
  | mutate {s env draws answer draws'} : given env →
      mutate env t s entry draws = .ok (answer, draws') →
      FuzzStep t given entry s (.mutate answer.ret answer.sample) answer.state
  | addHotOffset {s offset} : offset ≤ entry.size →
      FuzzStep t given entry s (.addHotOffset offset) (updateFields (addHotOffsetFields offset) t s)

/-! ### The mutator is well formed -/

/-- The values that are added have the size that was asked for.  -/
theorem size_addDefaultInterestingValues {k : ℕ} (hk : k < 2 ^ 64) {value : Sample}
    (h : value ∈ addDefaultInterestingValues k) : value.size = k := by
  obtain ⟨n, -, rfl⟩ := List.mem_map.1 h
  rw [Sample.size, Sample.init_bytes (by rwa [length_toLE]), length_toLE]

/-- So the values of the default list have two or four bytes.  -/
theorem size_defaultInterestingValues {value : Sample} (h : value ∈ defaultInterestingValues) :
    value.size = 2 ∨ value.size = 4 := by
  rcases List.mem_append.1 h with h | h
  · exact Or.inl (size_addDefaultInterestingValues (by decide) h)
  · exact Or.inr (size_addDefaultInterestingValues (by decide) h)

/-- How many values are added: eight for each byte, and 103 more.  -/
theorem length_addDefaultInterestingValues (k : ℕ) :
    (addDefaultInterestingValues k).length = k * 8 + 103 := by
  have htwo : ∀ ns : List ℕ, ∀ f : ℕ → ℕ, (ns.flatMap fun n => bothOrders k (f n)).length = 2 * ns.length := by
    intro ns f
    induction ns with
    | nil => rfl
    | cons n ns ih => rw [List.flatMap_cons, List.length_append, ih, List.length_cons]; exact Nat.add_comm _ _
  rw [addDefaultInterestingValues, List.length_map, List.length_append, List.length_append, htwo, htwo,
    List.length_cons, List.length_map, List.length_range]
  show k * 8 + 1 + 2 * 38 + 2 * 13 = _
  omega

/-- There are interesting values, so one of them can be drawn.  -/
theorem defaultInterestingValues_ne_nil : defaultInterestingValues ≠ [] := by
  refine List.append_ne_nil_of_left_ne_nil ?_ _
  rw [addDefaultInterestingValues, List.cons_append, List.cons_append, List.map_cons]
  exact List.cons_ne_nil _ _

/-- There is a probability for each of the mutators.  -/
theorem length_belowSum (o : BinaryOptions) : o.belowSum.length = o.leaves.length := by
  rw [BinaryOptions.belowSum, BinaryOptions.leaves]
  cases o.keepSamplesInMemory <;> rfl

/-- The deterministic rounds are some of the rounds.  -/
theorem deterministicRounds_le (o : BinaryOptions) : o.deterministicRounds ≤ o.nrounds := by
  rw [BinaryOptions.deterministicRounds]
  split
  · exact le_rfl
  · exact Nat.div_le_self _ _

/-- The shape of a mutator and its parameters, node by node. -/
def Sound (t : ClassTree) : Prop := WellFormed t ∧ t.Follows fun c _ => c.ParametersOk

/-- A tree of mutators is sound if its root has the children and the parameters that its
class needs, and its children are sound.  -/
theorem Sound.node {c : MutatorClass} {ts : List ClassTree} (hc : c.Ok ts.length)
    (hparams : c.ParametersOk) (hts : ∀ t ∈ ts, Sound t) : Sound (.node c ts) := by
  refine ⟨Tree.Follows.node ?_ fun t ht => (hts t ht).1, .node hparams fun t ht => (hts t ht).2⟩
  rwa [List.length_map]

/-- The mutators that `CreateMutator` selects from have parameters within their bounds,
whatever the options are: the options only say which of them there are, and with which
probability.  -/
theorem leaves_ok {o : BinaryOptions} (ho : o.Ok) : ∀ l ∈ o.leaves, l.Ok := by
  have hvalues : (Leaf.interestingValueMutator (o.dictionary.getD defaultInterestingValues)).Ok := by
    rcases hdict : o.dictionary with _ | values
    · refine ⟨?_, fun value hmem => ?_⟩
      · rw [Option.getD_none, defaultInterestingValues, List.length_append,
          length_addDefaultInterestingValues, length_addDefaultInterestingValues]
        decide
      · have := size_defaultInterestingValues hmem
        omega
    · exact ho.dictionary values hdict
  intro l hl
  have hbounds : ∀ {min max : ℤ}, 1 ≤ min → min ≤ max → max < 2 ^ 31 → Bounds min max :=
    fun h₁ h₂ h₃ => ⟨h₁, h₂, h₃⟩
  rcases List.mem_append.1 hl with hl | hl
  · simp only [List.mem_cons, List.not_mem_nil, or_false] at hl
    rcases hl with rfl | rfl | rfl | rfl | rfl | rfl | rfl | rfl | rfl | rfl
    · trivial
    · trivial
    · exact hbounds (by decide) (by decide) (by decide)
    · exact hbounds (by decide) (by decide) (by decide)
    · exact hbounds (by decide) (by decide) (by decide)
    · exact hbounds (by decide) (by decide) (by decide)
    · exact hbounds (by decide) (by decide) (by decide)
    · exact ⟨hbounds (by decide) (by decide) (by decide), hbounds (by decide) (by decide) (by decide)⟩
    · exact ⟨hbounds (by decide) (by decide) (by decide), hbounds (by decide) (by decide) (by decide)⟩
    · exact hvalues
  · split at hl
    · simp only [List.mem_cons, List.not_mem_nil, or_false] at hl
      rcases hl with rfl | rfl
      · exact Or.inl rfl
      · exact Or.inr rfl
    · cases hl

/-- So the mutator that repeats them is sound: it has the one child that it repeats, and
that one selects among mutators whose parameters are within their bounds.  -/
theorem sound_repeater {o : BinaryOptions} (ho : o.Ok) : Sound o.repeater := by
  have hpselect : Sound (.node (.pSelectMutator o.belowSum) (o.leaves.map fun l => .node (.leaf l) [])) := by
    refine .node ⟨?_, ?_⟩ trivial fun t ht => ?_
    · have hpos : 0 < o.leaves.length := by
        rw [BinaryOptions.leaves, List.length_append]
        exact Nat.add_pos_left (Nat.succ_pos _) _
      rw [List.length_map]
      exact decide_eq_true hpos
    · show o.belowSum.length = _
      rw [List.length_map, length_belowSum]
    · obtain ⟨l, hl, rfl⟩ := List.mem_map.1 ht
      exact .node ⟨rfl, trivial⟩ (leaves_ok ho l hl) fun t ht => absurd ht List.not_mem_nil
  refine .node ⟨rfl, trivial⟩ trivial fun t ht => ?_
  rw [List.mem_singleton.1 ht]
  split
  · refine .node ⟨rfl, trivial⟩ trivial fun t ht => ?_
    rw [List.mem_singleton.1 ht]
    exact hpselect
  · exact hpselect

/-- The two deterministic mutators, one behind the other, are sound.  -/
theorem sound_deterministicSequence : Sound deterministicSequence := by
  refine .node ⟨rfl, trivial⟩ trivial fun t ht => ?_
  simp only [List.mem_cons, List.not_mem_nil, or_false] at ht
  rcases ht with rfl | rfl
  · exact .node ⟨rfl, trivial⟩ trivial fun t ht => absurd ht List.not_mem_nil
  · exact .node ⟨rfl, trivial⟩ defaultInterestingValues_ne_nil fun t ht => absurd ht List.not_mem_nil

/-- **`CreateMutator` puts its mutators together as they must be**: each has as many
children as its class needs, and parameters within their bounds.  -/
theorem sound_createMutator {o : BinaryOptions} (ho : o.Ok) : Sound (createMutator o) := by
  have hle := deterministicRounds_le o
  have hlt := ho.nrounds
  rw [createMutator]
  split
  · refine .node ⟨rfl, ?_⟩ trivial fun t ht => ?_
    · show o.deterministicRounds + (o.nrounds - o.deterministicRounds) < 2 ^ 64
      omega
    · simp only [List.mem_cons, List.not_mem_nil, or_false] at ht
      rcases ht with rfl | rfl
      · exact sound_deterministicSequence
      · exact sound_repeater ho
  · refine .node ⟨rfl, trivial⟩ trivial fun t ht => ?_
    rw [List.mem_singleton.1 ht]
    exact sound_repeater ho

/-! ### How large a sample becomes -/

/-- The largest sample that a mutation leads to: a part that is put back where a range begins,
or a value that is written at the end of a window. -/
def BinaryOptions.sizeBound (o : BinaryOptions) (maxSize maxFrom : ℕ) : ℕ :=
  max (if o.trackRanges then maxFrom + maxSize else maxSize) (if o.deterministic then maxSize + 24 else 0)

/-- The bound of a job is not below that of the samples.  -/
theorem le_sizeBound (o : BinaryOptions) (maxSize maxFrom : ℕ) : maxSize ≤ o.sizeBound maxSize maxFrom := by
  refine le_trans ?_ (le_max_left _ _)
  split
  · exact Nat.le_add_left _ _
  · exact le_rfl

/-- The largest of some numbers is below every bound of all of them.  -/
theorem foldr_max_le {b : ℕ} {ns : List ℕ} (h : ∀ n ∈ ns, n ≤ b) : ns.foldr max 0 ≤ b := by
  induction ns with
  | nil => exact Nat.zero_le _
  | cons n ns ih =>
      exact max_le (h n List.mem_cons_self) (ih fun m hm => h m (List.mem_cons_of_mem _ hm))

/-- **How long a sample gets in the random mutators**: as long as `max_size`, and with
ranges by as much more as stands before the range.  -/
theorem room_repeater_le (o : BinaryOptions) (maxSize maxFrom maxEnd : ℕ) :
    room maxSize maxFrom maxEnd o.repeater ≤ if o.trackRanges then maxFrom + maxSize else maxSize := by
  have hpselect : room maxSize maxFrom maxEnd
      (.node (.pSelectMutator o.belowSum) (o.leaves.map fun l => .node (.leaf l) [])) ≤ maxSize := by
    rw [room_node]
    refine foldr_max_le fun n hn => ?_
    rw [List.map_map] at hn
    obtain ⟨l, -, rfl⟩ := List.mem_map.1 hn
    exact (room_node maxSize maxFrom maxEnd (.leaf l) []).le
  rw [BinaryOptions.repeater, room_node]
  refine foldr_max_le fun n hn => ?_
  rw [List.map_singleton, List.mem_singleton] at hn
  subst hn
  cases o.trackRanges with
  | true =>
      rw [if_pos rfl, if_pos rfl, room_node]
      refine Nat.add_le_add_left (foldr_max_le fun n hn => ?_) _
      rw [List.map_singleton, List.mem_singleton] at hn
      rwa [hn]
  | false => exact hpselect

/-- **How long a sample gets in the deterministic mutators**: up to the end of a region and
one value of four bytes.  -/
theorem room_deterministicSequence_le (maxSize maxFrom maxEnd : ℕ) :
    room maxSize maxFrom maxEnd deterministicSequence ≤ maxEnd + 4 := by
  have hsizes : ∀ n ∈ defaultInterestingValues.map Sample.size, n ≤ 4 := by
    refine List.forall_mem_map.2 fun value hvalue => ?_
    have := size_defaultInterestingValues hvalue
    omega
  rw [deterministicSequence, room_node]
  generalize defaultInterestingValues = values at hsizes
  refine foldr_max_le fun n hn => ?_
  simp only [List.map_cons, List.map_nil, List.mem_cons, List.not_mem_nil, or_false] at hn
  rcases hn with hn | hn
  · rw [hn, room_node]
    exact Nat.le_add_right _ _
  · rw [hn, room_node]
    exact Nat.add_le_add_left (foldr_max_le hsizes) _

/-- So the bound of the job is one for the whole mutator that `CreateMutator` builds, with
the deterministic part and the range mutator where the options ask for them.  -/
theorem room_createMutator_le (o : BinaryOptions) (maxSize maxFrom : ℕ) :
    room maxSize maxFrom (maxSize + 20) (createMutator o) ≤ o.sizeBound maxSize maxFrom := by
  have hrepeater := room_repeater_le o maxSize maxFrom (maxSize + 20)
  have hsequence := room_deterministicSequence_le maxSize maxFrom (maxSize + 20)
  rw [createMutator, BinaryOptions.sizeBound]
  generalize (if o.trackRanges then maxFrom + maxSize else maxSize) = bound at hrepeater
  split
  · rw [room_node]
    refine foldr_max_le fun n hn => ?_
    simp only [List.map_cons, List.map_nil, List.mem_cons, List.not_mem_nil, or_false] at hn
    omega
  · rw [room_node]
    refine foldr_max_le fun n hn => ?_
    rw [List.map_singleton, List.mem_singleton] at hn
    omega

/-! ### Every step keeps the regions -/

/-- A new state has no region yet.  -/
theorem stateEnds_createState (maxEnd : ℕ) (t : ClassTree) : StateEnds maxEnd t (createState t) :=
  Tree.matches_fold (R := fun _ (fields : Fields) => RegionsEnd maxEnd fields.context)
    (fun _ _ hr => absurd hr List.not_mem_nil) t

/-- Changing the fields of each mutator keeps what each of them keeps.  The tree of states
has the shape of the tree of mutators before and after.  -/
theorem matches_updateFields {R R' : MutatorClass → Fields → Prop} {f : MutatorClass → Fields → Fields}
    (hf : ∀ c fields, R c fields → R' c (f c fields)) {t : ClassTree} {s : FieldsTree}
    (h : Tree.Matches R t s) : Tree.Matches R' t (updateFields f t s) := by
  induction t using Tree.induction generalizing s with
  | h c ts ih =>
      obtain ⟨fields, us⟩ := s
      obtain ⟨hown, hus⟩ := Tree.matches_node.1 h
      rw [updateFields, Tree.fold_node]
      refine .node (hf c fields hown) ?_
      show List.Forall₂ _ ts (List.zipWith _ (ts.map (updateFields f)) us)
      clear hown h
      induction hus with
      | nil => exact .nil
      | @cons t u ts us htu _ ihs =>
          exact .cons (ih t List.mem_cons_self htu) (ihs fun t ht => ih t (List.mem_cons_of_mem _ ht))

/-- The contexts are those of another state, so where the regions end is the same; what a
call changes besides is not looked at.  -/
theorem StateEnds.sameContext {maxEnd : ℕ} {t : ClassTree} {s s' : FieldsTree}
    (h : StateEnds maxEnd t s) (hsame : Tree.Matches SameContext s s') : StateEnds maxEnd t s' := by
  induction t using Tree.induction generalizing s s' with
  | h c ts ih =>
      obtain ⟨fields, us⟩ := s
      obtain ⟨fields', us'⟩ := s'
      obtain ⟨hown, hus⟩ := Tree.matches_node.1 h
      obtain ⟨hfields, hus'⟩ := Tree.matches_node.1 hsame
      refine .node ?_ ?_
      · rw [hfields.context]
        exact hown
      · clear hown h hfields hsame
        induction hus generalizing us' with
        | nil =>
            rw [List.forall₂_nil_left_iff.1 hus']
            exact .nil
        | @cons t u ts us htu _ ihs =>
            obtain ⟨u', us₁, huu', hus₁, rfl⟩ := List.forall₂_cons_left_iff.1 hus'
            exact .cons (ih t List.mem_cons_self htu huu')
              (ihs (fun t ht => ih t (List.mem_cons_of_mem _ ht)) us₁ hus₁)

section Job

variable {o : BinaryOptions} {maxSize maxFrom : ℕ} {entry : Sample}

/-- **The mutator of `BinaryFuzzer` keeps to its samples**, however often a sample is taken up
and whatever is drawn: no region of it ends more than 20 positions behind a sample, no call of
`Mutate` leaves a block of memory, divides by zero or ends the fuzzer, and what it makes is no
larger than `sizeBound`. -/
theorem job_fits (ho : o.Ok) (hentry : entry.size ≤ maxSize) (hlt : o.sizeBound maxSize maxFrom < 2 ^ 31)
    {tr : List FuzzEvent} {s : FieldsTree}
    (hrun : Run (FuzzStep (createMutator o) (Surroundings.Ok maxSize maxFrom) entry)
      (createState (createMutator o)) tr s) :
    StateEnds (maxSize + 20) (createMutator o) s ∧
      (∀ env, Surroundings.Ok maxSize maxFrom env → Spec (mutate env (createMutator o) s entry)
        (fun answer => answer.sample.size ≤ o.sizeBound maxSize maxFrom) (· = .noDraws)) ∧
      ∀ ret sample, .mutate ret sample ∈ tr → sample.size ≤ o.sizeBound maxSize maxFrom := by
  have hsound := sound_createMutator ho
  have hcall : ∀ s, StateEnds (maxSize + 20) (createMutator o) s → ∀ env, Surroundings.Ok maxSize maxFrom env →
      Spec (mutate env (createMutator o) s entry)
        (FitsIn (o.sizeBound maxSize maxFrom) (maxSize + 20) (createMutator o)) (· = .noDraws) :=
    fun s hs env henv => fits_mutate henv hsound.1 hsound.2 (room_createMutator_le o maxSize maxFrom) hlt
      hs (hentry.trans (le_sizeBound o maxSize maxFrom))
  have hinv : StateEnds (maxSize + 20) (createMutator o) s ∧
      ∀ ret sample, .mutate ret sample ∈ tr → sample.size ≤ o.sizeBound maxSize maxFrom := by
    refine hrun.invariant (fun tr s => StateEnds (maxSize + 20) (createMutator o) s ∧
      ∀ ret sample, FuzzEvent.mutate ret sample ∈ tr → sample.size ≤ o.sizeBound maxSize maxFrom)
      ⟨stateEnds_createState _ _, fun _ _ h => absurd h List.not_mem_nil⟩ ?_
    rintro tr s event s' ⟨hs, htr⟩ hstep
    have hold : ∀ {ret sample}, FuzzEvent.mutate ret sample ∈ tr ++ [event] →
        event ≠ .mutate ret sample → sample.size ≤ o.sizeBound maxSize maxFrom := fun hmem hne => by
      rcases List.mem_append.1 hmem with hmem | hmem
      · exact htr _ _ hmem
      · exact absurd (List.mem_singleton.1 hmem).symm hne
    cases hstep with
    | initRound hsame =>
        refine ⟨matches_updateFields (fun c fields h => ?_) (hs.sameContext hsame), fun ret sample hmem =>
          hold hmem (by rintro ⟨⟩)⟩
        have hcontext : (initRoundFields c fields).context = fields.context := by
          cases c <;> first | rfl | (rw [initRoundFields]; split <;> rfl)
        rw [hcontext]
        exact h
    | addHotOffset hoffset =>
        refine ⟨matches_updateFields (fun c fields h => ?_) hs, fun ret sample hmem =>
          hold hmem (by rintro ⟨⟩)⟩
        cases c with
        | deterministicByteFlipMutator | deterministicInterestingValueMutator =>
            exact h.addHotOffset (by omega)
        | mutatorSequence =>
            rw [addHotOffsetFields]
            split
            · exact h
            · exact h
        | _ => exact h
    | @mutate env draws answer draws' henv hok =>
        have hanswer := (hcall s hs env henv).of_ok hok
        refine ⟨hanswer.2, fun ret sample hmem => ?_⟩
        by_cases hlast : FuzzEvent.mutate answer.ret answer.sample = .mutate ret sample
        · cases hlast
          exact hanswer.1
        · exact hold hmem hlast
  exact ⟨hinv.1, fun env henv => (hcall s hinv.1 env henv).mono fun answer hanswer => hanswer.1, hinv.2⟩

end Job

/-- One round, and no deterministic mutations, dictionary or ranges. -/
def oneRoundOptions : BinaryOptions := ⟨false, false, 1, some [], false, false⟩

/-- The options are ones that `CreateMutator` accepts.  -/
theorem oneRoundOptions_ok : oneRoundOptions.Ok := by
  refine ⟨by decide, fun values h => ?_⟩
  obtain rfl : [] = values := Option.some.inj h
  exact ⟨by decide, fun value hmem => absurd hmem List.not_mem_nil⟩

/-- A maximal size of 1000, and nothing to splice with. -/
def plainSurroundings : Surroundings := ⟨1000, [], [], below50⟩

/-- The surroundings are those of a job without ranges.  -/
theorem plainSurroundings_ok : plainSurroundings.Ok 1000 0 :=
  ⟨rfl, by decide, fun other hmem => absurd hmem List.not_mem_nil, fun range hmem => absurd hmem List.not_mem_nil⟩

/-- Three bytes, of which `ByteFlipMutator` has changed the second: the draws select it, its
position and its byte, and then end the repetition.  -/
theorem mutate_oneRound : ∃ answer, mutate plainSurroundings (createMutator oneRoundOptions)
    (updateFields initRoundFields (createMutator oneRoundOptions) (createState (createMutator oneRoundOptions)))
    (Sample.init [1, 2, 3]) [0, 1, 7, 4294967295] = .ok (answer, []) ∧
      answer.ret = true ∧ answer.sample = Sample.init [1, 7, 3] := by
  have hrun : ((mutate plainSurroundings (createMutator oneRoundOptions)
      (updateFields initRoundFields (createMutator oneRoundOptions)
        (createState (createMutator oneRoundOptions)))
      (Sample.init [1, 2, 3]) [0, 1, 7, 4294967295]).toOption.map
        fun r => (r.1.ret, r.1.sample, r.2)) = some (true, Sample.init [1, 7, 3], []) := by decide +kernel
  rcases hmutate : mutate plainSurroundings (createMutator oneRoundOptions)
      (updateFields initRoundFields (createMutator oneRoundOptions)
        (createState (createMutator oneRoundOptions)))
      (Sample.init [1, 2, 3]) [0, 1, 7, 4294967295] with e | ⟨answer, draws⟩
  · rw [hmutate] at hrun
    cases hrun
  · rw [hmutate] at hrun
    have hanswer : (answer.ret, answer.sample, draws) = (true, Sample.init [1, 7, 3], []) :=
      Option.some.inj hrun
    rw [Prod.mk.injEq, Prod.mk.injEq] at hanswer
    obtain ⟨hret, hsample, rfl⟩ := hanswer
    exact ⟨answer, rfl, hret, hsample⟩

/-- A state has the contexts that it has.  -/
theorem matches_self (s : FieldsTree) : Tree.Matches SameContext s s := by
  induction s using Tree.induction with
  | h fields us ih => exact .node ⟨rfl, rfl⟩ (List.forall₂_same.2 ih)

/-- A new sample is taken up and mutated once: `InitRound` sets the rounds back, and the one
call uses up the one that there is.  -/
theorem run_oneRound : ∃ s, Run (FuzzStep (createMutator oneRoundOptions) (Surroundings.Ok 1000 0)
    (Sample.init [1, 2, 3]))
    (updateFields initRoundFields (createMutator oneRoundOptions) (createState (createMutator oneRoundOptions)))
    [.mutate true (Sample.init [1, 7, 3])] s := by
  obtain ⟨answer, hmutate, hret, hsample⟩ := mutate_oneRound
  have hstep := Run.single (@FuzzStep.mutate _ (Surroundings.Ok 1000 0) (Sample.init [1, 2, 3]) _ _ _ _ _
    plainSurroundings_ok hmutate)
  rw [hret, hsample] at hstep
  exact ⟨answer.state, hstep⟩

/-- **A job of one round**: whatever is drawn, the sample fits, and so do the samples of a
run of the job.  All premises on the entry, on the corpus and on the options are those of a
small session.  -/
theorem job_fits_oneRound : ∃ s, StateEnds 1020 (createMutator oneRoundOptions) s ∧
    (∀ env, Surroundings.Ok 1000 0 env → Spec (mutate env (createMutator oneRoundOptions) s (Sample.init [1, 2, 3]))
      (fun answer => answer.sample.size ≤ 1000) (· = .noDraws)) ∧
    ∀ ret sample, FuzzEvent.mutate ret sample ∈
      [FuzzEvent.initRound, .mutate true (Sample.init [1, 7, 3])] → sample.size ≤ 1000 := by
  obtain ⟨s, hrun⟩ := run_oneRound
  exact ⟨s, job_fits oneRoundOptions_ok (by decide : (Sample.init [1, 2, 3]).size ≤ 1000) (by decide)
    (.cons (.initRound (matches_self _)) hrun)⟩

/-! ### How many samples a job makes -/

/-- The rounds of a mutator that counts them. -/
def Kind.rounds : Kind → Option ℕ
  | .nRoundMutator n => some n
  | .dtermininsticNondeterministicMutator m n => some (m + n)
  | _ => none

/-- **A mutator that counts its rounds** makes a sample as long as there are any left, and
counts it; when there are none left it answers `false` and changes nothing.  -/
theorem Mutates.round {kind : Kind} {ts : List Mutator} {s s' : State} {o : Outcome} {n : ℕ}
    (hkind : kind.rounds = some n) (h : Mutates (.node kind ts) s o s') (hle : s.label.currentRound ≤ n) :
    (o.ret = true ∧ s.label.currentRound < n ∧ s'.label.currentRound = s.label.currentRound + 1) ∨
      (o.ret = false ∧ s.label.currentRound = n ∧ s'.label.currentRound = n) := by
  cases h with
  | leaf _ hleaf =>
      cases kind with
      | nRoundMutator => cases hleaf
      | dtermininsticNondeterministicMutator => cases hleaf
      | _ => cases hkind
  | select hselect =>
      rcases hselect with rfl | rfl
      · cases hkind
      · cases hkind
  | sequenceEnd | sequence | sequenceNext | repeatFalse | repeatOnce | repeatAgain | range | rangeCropped =>
      cases hkind
  | nRoundDone hdone =>
      obtain rfl : _ = n := Option.some.inj hkind
      exact Or.inr ⟨rfl, hdone, hdone⟩
  | nRound hnext =>
      obtain rfl : _ = n := Option.some.inj hkind
      exact Or.inl ⟨rfl, lt_of_le_of_ne hle hnext, rfl⟩
  | deterministic hlt =>
      obtain rfl : _ = n := Option.some.inj hkind
      exact Or.inl ⟨rfl, Nat.lt_add_right _ hlt, rfl⟩
  | nondeterministic _ hlt =>
      obtain rfl : _ = n := Option.some.inj hkind
      exact Or.inl ⟨rfl, hlt, rfl⟩
  | nondeterministicInstead hlt =>
      obtain rfl : _ = n := Option.some.inj hkind
      exact Or.inl ⟨rfl, Nat.lt_add_right _ hlt, rfl⟩
  | roundsDone hdone =>
      obtain rfl : _ = n := Option.some.inj hkind
      exact Or.inr ⟨rfl, le_antisymm hle hdone, le_antisymm hle hdone⟩

/-- The samples that were made. -/
def made (tr : List FuzzEvent) : ℕ :=
  tr.countP fun event =>
    match event with
    | .mutate ret _ => ret
    | _ => false

/-- One event more of the job.  -/
theorem made_snoc (tr : List FuzzEvent) (event : FuzzEvent) :
    made (tr ++ [event]) = made tr + made [event] := List.countP_append

/-- A mutator that counts its rounds, in one job: its counter is the number of samples that
were made, and never more than the rounds that it has.  -/
theorem rounds_of_run {t : ClassTree} {n : ℕ} {given : Surroundings → Prop} {entry : Sample}
    (ht : WellFormed t) (hrounds : t.label.kind.rounds = some n) {s₀ s : FieldsTree} {tr : List FuzzEvent}
    (hs₀ : StateOf t s₀) (hzero : s₀.label.currentRound = 0)
    (hrun : Run (FuzzStep t given entry) s₀ tr s) (hone : .initRound ∉ tr) :
    StateOf t s ∧ s.label.currentRound = made tr ∧ made tr ≤ n := by
  refine hrun.invariant_of (fun event => event ≠ .initRound)
    (fun tr s => StateOf t s ∧ s.label.currentRound = made tr ∧ made tr ≤ n)
    (fun event hmem heq => hone (heq ▸ hmem)) ⟨hs₀, hzero, Nat.zero_le _⟩ ?_
  rintro tr s event s' ⟨hs, hcount, hle⟩ hne hstep
  obtain ⟨c, ts⟩ := t
  obtain ⟨fields, us⟩ := s
  cases hstep with
  | initRound => exact absurd rfl hne
  | addHotOffset =>
      refine ⟨matches_updateFields (fun _ _ _ => trivial) hs, ?_, ?_⟩
      · rw [made_snoc]
        refine Eq.trans ?_ hcount
        rw [updateFields, Tree.fold_node, Tree.label_node, Tree.label_node]
        cases c with
        | mutatorSequence => cases hrounds
        | _ => rfl
      · rw [made_snoc]
        exact hle
  | @mutate env draws answer draws' henv hok =>
      obtain ⟨hshape, d, hmutates⟩ := (spec_mutates ht hs entry).of_ok hok
      obtain ⟨ret, sample, ⟨fields', us'⟩⟩ := answer
      rw [kinds_node, states_node, states_node] at hmutates
      have hcount' : fields.currentRound = made tr := hcount
      rw [made_snoc]
      rcases hmutates.round hrounds (by rw [Tree.label_node, hcount']; exact hle) with
        ⟨hret, hlt, hnext⟩ | ⟨hret, hlast, hnext⟩
      · obtain rfl : ret = true := hret
        exact ⟨hshape, hnext.trans (congrArg (· + 1) hcount'), by rw [← hcount']; exact hlt⟩
      · obtain rfl : ret = false := hret
        exact ⟨hshape, hnext.trans (hlast.symm.trans hcount'), hle⟩

/-- Both shapes that `CreateMutator` builds are limited to `nrounds` rounds at their root.
-/
theorem rounds_createMutator (o : BinaryOptions) : (createMutator o).label.kind.rounds = some o.nrounds := by
  have hle := deterministicRounds_le o
  rw [createMutator]
  split
  · show some (o.deterministicRounds + (o.nrounds - o.deterministicRounds)) = _
    rw [Nat.add_sub_cancel' hle]
  · rfl

/-- **A job makes as many samples as `-iterations_per_round` says**: whatever the options, the
draws and the hot offsets, `Mutate` returns `true` exactly while it has returned it less often
since the sample was taken up. -/
theorem job_rounds {o : BinaryOptions} (ho : o.Ok) {given : Surroundings → Prop} {entry : Sample}
    {s₀ s : FieldsTree} {tr : List FuzzEvent} (hs₀ : StateOf (createMutator o) s₀)
    (hrun : Run (FuzzStep (createMutator o) given entry)
      (updateFields initRoundFields (createMutator o) s₀) tr s)
    (hone : .initRound ∉ tr) :
    made tr ≤ o.nrounds ∧ ∀ env draws answer draws',
      mutate env (createMutator o) s entry draws = .ok (answer, draws') →
      (answer.ret = true ↔ made tr < o.nrounds) := by
  have hwell := (sound_createMutator ho).1
  have hrounds := rounds_createMutator o
  generalize createMutator o = t at hwell hrounds hs₀ hrun
  have hzero : (updateFields initRoundFields t s₀).label.currentRound = 0 := by
    obtain ⟨c, ts⟩ := t
    rw [updateFields, Tree.fold_node, Tree.label_node]
    cases c <;> first | rfl | cases hrounds
  have hs₀' : StateOf t (updateFields initRoundFields t s₀) :=
    matches_updateFields (fun _ _ _ => trivial) hs₀
  obtain ⟨hs, hcount, hle⟩ := rounds_of_run hwell hrounds hs₀' hzero hrun hone
  refine ⟨hle, fun env draws answer draws' hok => ?_⟩
  obtain ⟨-, d, hmutates⟩ := (spec_mutates hwell hs entry).of_ok hok
  obtain ⟨c, ts⟩ := t
  obtain ⟨fields, us⟩ := s
  rw [kinds_node, states_node] at hmutates
  have hcount' : fields.currentRound = made tr := hcount
  rcases hmutates.round hrounds (by rw [Tree.label_node, hcount']; exact hle) with
    ⟨hret, hlt, -⟩ | ⟨hret, hlast, -⟩
  · exact ⟨fun _ => by rw [← hcount']; exact hlt, fun _ => hret⟩
  · have hlast' : fields.currentRound = o.nrounds := hlast
    exact ⟨fun h => absurd (hret.symm.trans h) Bool.false_ne_true, fun h => by omega⟩

/-- After the one round there is none left: the state is one that a call of the mutator
leads to, and whatever the next call draws, it answers `false`. -/
theorem job_rounds_oneRound : ∃ s, ∀ env draws answer draws',
    mutate env (createMutator oneRoundOptions) s (Sample.init [1, 2, 3]) draws = .ok (answer, draws') →
    (answer.ret = true ↔ 1 < 1) := by
  obtain ⟨s, hrun⟩ := run_oneRound
  refine ⟨s, (job_rounds oneRoundOptions_ok ?_ hrun ?_).2⟩
  · exact Tree.matches_fold (R := fun _ _ => True) (fun _ => trivial) _
  · rintro (_ | ⟨_, ⟨⟩⟩)

end Mutators
end Jackalope
