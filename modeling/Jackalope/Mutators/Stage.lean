/-
# The deterministic stage of a sample

`CreateMutator` (`main.cpp`, lines 103-126) gives the first rounds of a job to a sequence of two
mutators: `DeterministicByteFlipMutator`, and behind it `DeterministicInterestingValueMutator`.
Each goes through the windows around the hot offsets of a sample, over as many jobs as it takes;
the sequence goes on from where it was in the last job, and back to its beginning when there is a
new hot offset.

In every run a round that the sequence could have had is a random one only when it is through
with all windows: each byte of each has had every value, and each position every interesting
value (`job_deterministic`).  What it was told of the samples it made is in the trace.
-/

import Jackalope.Mutators.Job

namespace Jackalope
namespace Mutators

open Foundation Foundation.Consumer Foundation.Buffer

/-! ### What the deterministic mutators make -/

/-- The sample with one byte written, and made longer for it. -/
def withByte (entry : Sample) (pos value : ℕ) : Sample :=
  overwritten (extend entry (pos + 1)) pos [UInt8.ofNat value]

/-- The sample with a value written, and made longer for it. -/
def withValue (entry : Sample) (pos : ℕ) (value : Sample) : Sample :=
  overwritten (extend entry (pos + value.size)) pos value.bytes

/-- With the value of an index. -/
def withValueAt (entry : Sample) (values : List Sample) (pos valueIndex : ℕ) : Sample :=
  values[valueIndex]?.elim entry (withValue entry pos)

/-- The answer of a deterministic mutator, from that of `GetNextByteToMutate`. -/
def answerNext (maxProgress : ℕ) (make : ℕ → ℕ → Sample) (fields : Fields) (us : List FieldsTree)
    (entry : Sample) : Answer :=
  let (found, context) := fields.context.getNextByteToMutate maxProgress
  ⟨found.isSome, found.elim entry fun (pos, progress) => make pos progress, .node { fields with context } us⟩

section Answers

variable {fields : Fields} {us : List FieldsTree} {entry : Sample}

/-- **The deterministic byte flip** answers with the next position and value of its context,
and with the sample of the entry in which that byte is set.  -/
theorem spec_answersByte
    (hpos : ∀ pos value, (fields.context.getNextByteToMutate 256).1 = some (pos, value) → pos + 1 < 2 ^ 64) :
    Spec (deterministicByteFlipMutate (.node fields us) entry)
      (· = answerNext 256 (withByte entry) fields us entry) fun _ => True := by
  rw [deterministicByteFlipMutate, answerNext]
  dsimp only [Tree.label_node, Tree.children_node]
  rcases hfound : fields.context.getNextByteToMutate 256 with ⟨_ | ⟨pos, value⟩, context⟩
  · exact Spec.pure rfl
  · have hlt : pos + 1 < 2 ^ 64 := hpos pos value (by rw [hfound])
    obtain ⟨-, hset, -⟩ := @memcpy_extend entry pos [UInt8.ofNat value] hlt
    have hextend : (if pos ≥ entry.size then entry.resize (pos + 1) else entry) = extend entry (pos + 1) := by
      rw [extend]
      by_cases hbehind : pos ≥ entry.size
      · rw [if_pos hbehind, if_pos (by omega)]
      · rw [if_neg hbehind, if_neg (by omega)]
    dsimp only
    rw [wrap_of_lt hlt, hextend, store_paste (by
      show pos < (extend entry (pos + 1)).size
      rw [size_extend entry hlt]
      omega), access_some, pure_bind]
    have hset' : setBytes (of (paste (extend entry (pos + 1)).bytes pos [UInt8.ofNat value]))
        (extend entry (pos + 1)).size = pure (withByte entry pos value) := hset
    rw [hset', pure_bind]
    exact Spec.pure rfl

/-- **The deterministic mutator of interesting values** answers with the next position and
value of its context, and with the sample of the entry in which that value is pasted.  -/
theorem spec_answersValue {values : List Sample}
    (hpos : ∀ pos valueIndex,
      (fields.context.getNextByteToMutate values.length).1 = some (pos, valueIndex) →
      valueIndex < values.length ∧ ∀ value ∈ values, pos + value.size < 2 ^ 64) :
    Spec (deterministicInterestingValueMutate values (.node fields us) entry)
      (· = answerNext values.length (withValueAt entry values) fields us entry) fun _ => True := by
  rw [deterministicInterestingValueMutate, answerNext]
  dsimp only [Tree.label_node, Tree.children_node]
  rcases hfound : fields.context.getNextByteToMutate values.length with ⟨_ | ⟨pos, valueIndex⟩, context⟩
  · exact Spec.pure rfl
  · obtain ⟨hindex, hsizes⟩ := hpos pos valueIndex (by rw [hfound])
    have hget := List.getElem?_eq_getElem hindex
    have hlt := hsizes _ (List.getElem_mem hindex)
    dsimp only
    rw [hget, access_some, pure_bind]
    generalize values[valueIndex] = value at hget hlt
    obtain ⟨hcopy, hset, -⟩ := @memcpy_extend entry pos value.bytes hlt
    have hextend : (if pos + value.size > entry.size then entry.resize (pos + value.size) else entry) =
        extend entry (pos + value.size) := rfl
    have hcopy' : memcpy (of (extend entry (pos + value.size)).bytes) pos (of value.bytes) 0 value.size =
        some (of (paste (extend entry (pos + value.size)).bytes pos value.bytes)) := hcopy
    have hset' : setBytes (of (paste (extend entry (pos + value.size)).bytes pos value.bytes))
        (extend entry (pos + value.size)).size = pure (withValue entry pos value) := hset
    rw [wrap_of_lt hlt, hextend, hcopy', access_some, pure_bind, hset', pure_bind]
    refine Spec.pure ?_
    have hmade : withValueAt entry values pos valueIndex = withValue entry pos value := by
      rw [withValueAt, hget]
      rfl
    rw [Option.elim_some, hmade]
    rfl

end Answers

/-! ### What has been tried -/

/-- The position is in the window of a hot offset. -/
def InWindow (tr : List FuzzEvent) (pos : ℕ) : Prop :=
  ∃ offset, .addHotOffset offset ∈ tr ∧ offset - 3 ≤ pos ∧ pos < offset + 20

/-- Every byte of every window has had every value. -/
def BytesTried (entry : Sample) (tr : List FuzzEvent) : Prop :=
  ∀ pos, InWindow tr pos → ∀ value < 256, .mutate true (withByte entry pos value) ∈ tr

/-- Every value has been written at every position of every window. -/
def ValuesTried (entry : Sample) (values : List Sample) (tr : List FuzzEvent) : Prop :=
  ∀ pos, InWindow tr pos → ∀ value ∈ values, .mutate true (withValue entry pos value) ∈ tr

/-- The scan is at its end. -/
def Exhausted (context : BaseDeterministicContext) : Prop := ∀ r ∈ context.regions, r.regionEnd ≤ r.cur

/-- The context is one to which the calls of a run have led: the hot offsets of the trace were
added, and for each pair that was returned the trace has the sample. -/
def Tried (maxProgress : ℕ) (make : ℕ → ℕ → Sample) (tr : List FuzzEvent)
    (context : BaseDeterministicContext) : Prop :=
  ∃ scans, Run (ScanStep {maxProgress}) .empty scans context ∧
    (∀ offset, .addHotOffset offset ∈ scans ↔ .addHotOffset offset ∈ tr) ∧
    ∀ pos progress, .getNextByteToMutate (some (pos, progress)) ∈ scans →
      .mutate true (make pos progress) ∈ tr

section Tried

variable {maxProgress : ℕ} {make : ℕ → ℕ → Sample} {tr : List FuzzEvent}
  {context : BaseDeterministicContext}

/-- Nothing was tried, and there is nothing to try yet.  -/
theorem tried_empty (maxProgress : ℕ) (make : ℕ → ℕ → Sample) : Tried maxProgress make [] .empty :=
  ⟨[], .refl, fun _ => iff_of_false List.not_mem_nil List.not_mem_nil, fun _ _ h => absurd h List.not_mem_nil⟩

/-- An event that is no hot offset changes nothing for the others. -/
theorem mem_snoc_hot {event : FuzzEvent} (hevent : ∀ offset, event ≠ .addHotOffset offset) (offset : ℕ) :
    .addHotOffset offset ∈ tr ++ [event] ↔ .addHotOffset offset ∈ tr := by
  rw [List.mem_append, List.mem_singleton]
  exact or_iff_left fun h => hevent offset h.symm

/-- What was tried stays so with every event that adds no offset.  -/
theorem Tried.snoc (h : Tried maxProgress make tr context) {event : FuzzEvent}
    (hevent : ∀ offset, event ≠ .addHotOffset offset) : Tried maxProgress make (tr ++ [event]) context := by
  obtain ⟨scans, hrun, hoffsets, hpairs⟩ := h
  exact ⟨scans, hrun, fun offset => (hoffsets offset).trans (mem_snoc_hot hevent offset).symm,
    fun pos progress hmem => List.mem_append_left _ (hpairs pos progress hmem)⟩

/-- An offset that is added puts its window in front of what is still to be tried, and takes
nothing back of what was.  -/
theorem Tried.addHotOffset (h : Tried maxProgress make tr context) (offset : ℕ) :
    Tried maxProgress make (tr ++ [.addHotOffset offset]) (context.addHotOffset offset) := by
  obtain ⟨scans, hrun, hoffsets, hpairs⟩ := h
  refine ⟨scans ++ [.addHotOffset offset], hrun.snoc (.addHotOffset offset), fun offset' => ?_,
    fun pos progress hmem => ?_⟩
  · rw [List.mem_append, List.mem_append, hoffsets offset', List.mem_singleton, List.mem_singleton,
      ScanEvent.addHotOffset.injEq, FuzzEvent.addHotOffset.injEq]
  · rcases List.mem_append.1 hmem with hmem | hmem
    · exact List.mem_append_left _ (hpairs pos progress hmem)
    · cases List.mem_singleton.1 hmem

/-- A call, where what it returns has been made: the pair that the context goes over is in
the trace as a sample.  -/
theorem Tried.next (h : Tried maxProgress make tr context)
    (hmade : ∀ pos progress, (context.getNextByteToMutate maxProgress).1 = some (pos, progress) →
      .mutate true (make pos progress) ∈ tr) :
    Tried maxProgress make tr (context.getNextByteToMutate maxProgress).2 := by
  obtain ⟨scans, hrun, hoffsets, hpairs⟩ := h
  refine ⟨_, hrun.snoc (.getNextByteToMutate (Set.mem_singleton maxProgress)), fun offset => ?_,
    fun pos progress hmem => ?_⟩
  · rw [← hoffsets offset, List.mem_append]
    exact or_iff_left fun h => by cases List.mem_singleton.1 h
  · rcases List.mem_append.1 hmem with hmem | hmem
    · exact hpairs pos progress hmem
    · have hfound := List.mem_singleton.1 hmem
      rw [ScanEvent.getNextByteToMutate.injEq] at hfound
      exact hmade pos progress hfound.symm

/-- A call that has returned nothing. -/
theorem Tried.nothing (h : Tried maxProgress make tr context)
    (hnone : (context.getNextByteToMutate maxProgress).1 = none) :
    Tried maxProgress make tr (context.getNextByteToMutate maxProgress).2 :=
  h.next fun pos progress hfound => by rw [hnone] at hfound; cases hfound

/-- A call, and the sample that was made of what it has returned: the trace has one sample
more, and it is the one for the pair.  -/
theorem Tried.found (h : Tried maxProgress make tr context) {pos progress : ℕ}
    (hfound : (context.getNextByteToMutate maxProgress).1 = some (pos, progress)) :
    Tried maxProgress make (tr ++ [.mutate true (make pos progress)])
      (context.getNextByteToMutate maxProgress).2 := by
  refine (h.snoc fun offset => by rintro ⟨⟩).next fun pos' progress' hfound' => ?_
  rw [hfound] at hfound'
  cases hfound'
  exact List.mem_append_right _ (List.mem_singleton_self _)

variable (hM : 1 ≤ maxProgress) (hwrap : ∀ offset, .addHotOffset offset ∈ tr → offset + 20 < 2 ^ 64)

include hwrap

/-- The regions are the windows of the hot offsets, as long as the offsets are such that
their windows do not wrap.  -/
theorem Tried.covers (h : Tried maxProgress make tr context) (pos : ℕ) :
    Covers context.regions pos ↔ InWindow tr pos := by
  obtain ⟨scans, hrun, hoffsets, -⟩ := h
  have hnowrap : ∀ event ∈ scans, event.NoWrap := by
    intro event hmem
    cases event with
    | addHotOffset offset => exact hwrap offset ((hoffsets offset).1 hmem)
    | getNextByteToMutate => trivial
  rw [(windows_of_run hrun hnowrap).covers pos]
  simp only [hoffsets, InWindow]

include hM

/-- **A scan at its end has made everything.** -/
theorem Tried.all (h : Tried maxProgress make tr context) (hdone : Exhausted context) {pos progress : ℕ}
    (hpos : InWindow tr pos) (hprogress : progress < maxProgress) : .mutate true (make pos progress) ∈ tr := by
  obtain ⟨r, hr, hstart, hend⟩ := (h.covers hwrap pos).2 hpos
  obtain ⟨scans, hrun, -, hpairs⟩ := h
  refine hpairs pos progress (((scanned_of_run hM hrun).returned pos progress hprogress).1 ⟨r, hr, ?_⟩)
  exact ⟨hstart, Or.inl (hend.trans_le (hdone r hr))⟩

/-- What is returned is in a window of a hot offset, and its value is one that is to be
tried there.  -/
theorem Tried.inWindow (h : Tried maxProgress make tr context) {pos progress : ℕ}
    (hfound : (context.getNextByteToMutate maxProgress).1 = some (pos, progress)) :
    InWindow tr pos ∧ progress < maxProgress := by
  have hcovers := h.covers hwrap
  obtain ⟨scans, hrun, -, -⟩ := h
  have hscanned := scanned_of_run hM hrun
  obtain ⟨rs, hadv, ⟨-, k, hnext⟩ | ⟨pre, r, post, rfl, -, hlt, hprogress, hnext⟩⟩ :=
    getNextByteToMutate_cases hM context hscanned.sound hscanned.done
  · rw [hnext] at hfound
    cases hfound
  · rw [hnext] at hfound
    cases hfound
    have hr : r ∈ pre ++ r :: post := List.mem_append_right _ List.mem_cons_self
    have hstart := (hadv.sound hM hscanned.sound r hr).start_le
    refine ⟨(hcovers r.cur).1 ?_, hprogress⟩
    rw [covers_iff_bounds, ← hadv.bounds_eq, ← covers_iff_bounds]
    exact ⟨r, hr, hstart, hlt⟩

omit hwrap in
/-- `false` is the answer of a scan that is at its end: every region has its cursor behind
its last position.  -/
theorem Tried.exhausted (h : Tried maxProgress make tr context)
    (hnone : (context.getNextByteToMutate maxProgress).1 = none) :
    Exhausted (context.getNextByteToMutate maxProgress).2 := by
  obtain ⟨scans, hrun, -, -⟩ := h
  have hscanned := scanned_of_run hM hrun
  obtain ⟨rs, -, ⟨hall, k, hnext⟩ | ⟨pre, r, post, -, -, -, -, hnext⟩⟩ :=
    getNextByteToMutate_cases hM context hscanned.sound hscanned.done
  · rw [hnext]
    exact hall
  · rw [hnext] at hnone
    cases hnone

end Tried

/-! ### The sequence -/

/-- The two mutators, with values. -/
def sequenceOf (values : List Sample) : ClassTree :=
  .node (.mutatorSequence false true) [.node .deterministicByteFlipMutator [],
    .node (.deterministicInterestingValueMutator values) []]

/-- How far the sequence is: a mutator that it has passed is at its end. -/
structure Passed (entry : Sample) (values : List Sample) (tr : List FuzzEvent)
    (fields byteFlip interestingValue : Fields) : Prop where
  bytes : Tried 256 (withByte entry) tr byteFlip.context
  values : Tried values.length (withValueAt entry values) tr interestingValue.context
  first : 1 ≤ fields.currentMutatorIndex → Exhausted byteFlip.context
  second : 2 ≤ fields.currentMutatorIndex → Exhausted interestingValue.context

/-- The state of the sequence. -/
def Staged (entry : Sample) (values : List Sample) (tr : List FuzzEvent) (u : FieldsTree) : Prop :=
  ∃ fields byteFlip us₀ interestingValue us₁,
    u = .node fields [.node byteFlip us₀, .node interestingValue us₁] ∧
      Passed entry values tr fields byteFlip interestingValue

/-- Where the stage has got to does not change with an event of somebody else.  -/
theorem Passed.snoc {entry : Sample} {values : List Sample} {tr : List FuzzEvent}
    {fields byteFlip interestingValue : Fields} (h : Passed entry values tr fields byteFlip interestingValue)
    {event : FuzzEvent} (hevent : ∀ offset, event ≠ .addHotOffset offset) :
    Passed entry values (tr ++ [event]) fields byteFlip interestingValue :=
  ⟨h.bytes.snoc hevent, h.values.snoc hevent, h.first, h.second⟩

/-- Nor does that of the sequence of both mutators.  -/
theorem Staged.snoc {entry : Sample} {values : List Sample} {tr : List FuzzEvent} {u : FieldsTree}
    (h : Staged entry values tr u) {event : FuzzEvent} (hevent : ∀ offset, event ≠ .addHotOffset offset) :
    Staged entry values (tr ++ [event]) u := by
  obtain ⟨fields, byteFlip, us₀, interestingValue, us₁, rfl, hpassed⟩ := h
  exact ⟨fields, byteFlip, us₀, interestingValue, us₁, rfl, hpassed.snoc hevent⟩

/-- One byte of a window. -/
def ByteMade (entry : Sample) (tr : List FuzzEvent) (sample : Sample) : Prop :=
  ∃ pos, InWindow tr pos ∧ ∃ value < 256, sample = withByte entry pos value

/-- One value, when all bytes are through. -/
def ValueMade (entry : Sample) (values : List Sample) (tr : List FuzzEvent) (sample : Sample) : Prop :=
  BytesTried entry tr ∧ ∃ pos, InWindow tr pos ∧ ∃ value ∈ values, sample = withValue entry pos value

/-- What the sequence answers: a byte, a value, or that there is nothing left. -/
def SequenceAnswers (entry : Sample) (values : List Sample) (tr : List FuzzEvent) (answer : Answer) : Prop :=
  (answer.ret = true ∧ (ByteMade entry tr answer.sample ∨ ValueMade entry values tr answer.sample) ∧
      Staged entry values (tr ++ [.mutate true answer.sample]) answer.state) ∨
    (answer.ret = false ∧ BytesTried entry tr ∧ ValuesTried entry values tr ∧
      Staged entry values tr answer.state)

section Sequence

variable {entry : Sample} {values : List Sample} {tr : List FuzzEvent}
  {fields byteFlip interestingValue : Fields} {us₀ us₁ : List FieldsTree}
  (hvalues : values ≠ []) (hsizes : ∀ value ∈ values, value.size ≤ 4)
  (hwrap : ∀ offset, .addHotOffset offset ∈ tr → offset + 24 < 2 ^ 64)

include hwrap

/-- When the context is exhausted, every byte value was tried at every position of every
window.  -/
theorem bytesTried {context : BaseDeterministicContext} (h : Tried 256 (withByte entry) tr context)
    (hdone : Exhausted context) : BytesTried entry tr := fun _ hpos _ hvalue =>
  h.all (by decide) (fun offset hmem => by have := hwrap offset hmem; omega) hdone hpos hvalue

include hvalues

/-- When the context is exhausted, every interesting value was tried at every position of
every window.  -/
theorem valuesTried {context : BaseDeterministicContext}
    (h : Tried values.length (withValueAt entry values) tr context) (hdone : Exhausted context) :
    ValuesTried entry values tr := by
  intro pos hpos value hvalue
  obtain ⟨valueIndex, hindex, rfl⟩ := List.getElem_of_mem hvalue
  have hmade := h.all (List.length_pos_iff.2 hvalues)
    (fun offset hmem => by have := hwrap offset hmem; omega) hdone hpos hindex
  rwa [withValueAt, List.getElem?_eq_getElem hindex] at hmade

/-- The loop at its end. -/
theorem spec_sequenceEnd (h : Passed entry values tr fields byteFlip interestingValue)
    (hindex : 2 ≤ fields.currentMutatorIndex) :
    SequenceAnswers entry values tr ⟨false, entry,
      .node { fields with ran := none } [.node byteFlip us₀, .node interestingValue us₁]⟩ :=
  Or.inr ⟨rfl, bytesTried hwrap h.bytes (h.first (by omega)),
    valuesTried hvalues hwrap h.values (h.second hindex),
    _, _, _, _, _, rfl, h.bytes, h.values, h.first, h.second⟩

include hsizes

/-- The loop from the second mutator on: the first one has tried all its bytes, and now
values are tried until there are none left.  -/
theorem spec_sequenceSecond {env : Surroundings} (h : Passed entry values tr fields byteFlip interestingValue)
    (hindex : fields.currentMutatorIndex = 1) :
    Spec (sequenceLoop [mutate env (.node (.deterministicInterestingValueMutator values) [])] fields
        [.node byteFlip us₀, .node interestingValue us₁] entry)
      (SequenceAnswers entry values tr) fun _ => True := by
  have hM : 1 ≤ values.length := List.length_pos_iff.2 hvalues
  have hbytes := bytesTried hwrap h.bytes (h.first hindex.ge)
  have hinWindow : ∀ pos valueIndex,
      (interestingValue.context.getNextByteToMutate values.length).1 = some (pos, valueIndex) →
      InWindow tr pos ∧ valueIndex < values.length :=
    fun _ _ => h.values.inWindow hM fun offset hmem => by have := hwrap offset hmem; omega
  rw [sequenceLoop, hindex]
  refine Spec.bind (Q := (· = .node interestingValue us₁)) (Spec.pure rfl) ?_
  rintro u rfl
  rw [mutate_node]
  refine (spec_answersValue fun pos valueIndex hfound => ?_).bind ?_
  · obtain ⟨⟨offset, hmem, -, hpos⟩, hlt⟩ := hinWindow pos valueIndex hfound
    refine ⟨hlt, fun value hvalue => ?_⟩
    have := hwrap offset hmem
    have := hsizes value hvalue
    omega
  rintro answer rfl
  rw [answerNext]
  rcases hnext : interestingValue.context.getNextByteToMutate values.length with
    ⟨_ | ⟨pos, valueIndex⟩, context⟩
  · have htried := h.values.nothing (by rw [hnext])
    have hdone := h.values.exhausted hM (by rw [hnext])
    rw [hnext] at htried hdone
    refine Spec.pure (spec_sequenceEnd hvalues hwrap ⟨h.bytes, htried, fun _ => h.first hindex.ge,
      fun _ => hdone⟩ le_rfl)
  · have hfound : (interestingValue.context.getNextByteToMutate values.length).1 = some (pos, valueIndex) := by
      rw [hnext]
    have htried := h.values.found hfound
    obtain ⟨hpos, hlt⟩ := hinWindow pos valueIndex hfound
    rw [hnext] at htried
    have hmade : withValueAt entry values pos valueIndex = withValue entry pos values[valueIndex] := by
      rw [withValueAt, List.getElem?_eq_getElem hlt]
      rfl
    refine Spec.pure (Or.inl ⟨rfl, Or.inr ⟨hbytes, pos, hpos, _, List.getElem_mem hlt, hmade⟩, ?_⟩)
    exact ⟨_, _, _, _, _, rfl, h.bytes.snoc fun offset => by rintro ⟨⟩, htried,
      fun _ => h.first hindex.ge, fun hle => absurd hindex (by dsimp only at hle; omega)⟩

/-- **What the sequence does**, wherever it is: it tries a byte that has not been tried, or
if there is none a value, and answers `false` only when both are exhausted.  -/
theorem spec_sequence {env : Surroundings} {u : FieldsTree} (h : Staged entry values tr u) :
    Spec (mutate env (sequenceOf values) u entry) (SequenceAnswers entry values tr) fun _ => True := by
  obtain ⟨fields, byteFlip, us₀, interestingValue, us₁, rfl, h⟩ := h
  rw [sequenceOf, mutate_node, MutatorClass.mutate, sequenceMutate, List.map_cons, List.map_singleton]
  dsimp only [Tree.label_node, Tree.children_node]
  rcases hindex : fields.currentMutatorIndex with _ | _ | index
  · have hinWindow : ∀ pos value, (byteFlip.context.getNextByteToMutate 256).1 = some (pos, value) →
        InWindow tr pos ∧ value < 256 :=
      fun _ _ => h.bytes.inWindow (by decide) fun offset hmem => by have := hwrap offset hmem; omega
    rw [List.drop_zero, sequenceLoop, hindex]
    refine Spec.bind (Q := (· = .node byteFlip us₀)) (Spec.pure rfl) ?_
    rintro u rfl
    rw [mutate_node]
    refine (spec_answersByte fun pos value hfound => ?_).bind ?_
    · obtain ⟨⟨offset, hmem, -, hpos⟩, -⟩ := hinWindow pos value hfound
      have := hwrap offset hmem
      omega
    rintro answer rfl
    rw [answerNext]
    rcases hnext : byteFlip.context.getNextByteToMutate 256 with ⟨_ | ⟨pos, value⟩, context⟩
    · have htried := h.bytes.nothing (by rw [hnext])
      have hdone := h.bytes.exhausted (by decide) (by rw [hnext])
      rw [hnext] at htried hdone
      exact spec_sequenceSecond hvalues hsizes hwrap ⟨htried, h.values, fun _ => hdone,
        fun hle => absurd hle (by dsimp only; omega)⟩ rfl
    · have hfound : (byteFlip.context.getNextByteToMutate 256).1 = some (pos, value) := by rw [hnext]
      have htried := h.bytes.found hfound
      obtain ⟨hpos, hlt⟩ := hinWindow pos value hfound
      rw [hnext] at htried
      refine Spec.pure (Or.inl ⟨rfl, Or.inl ⟨pos, hpos, value, hlt, rfl⟩, ?_⟩)
      exact ⟨_, _, _, _, _, rfl, htried, h.values.snoc fun offset => by rintro ⟨⟩,
        fun hle => absurd hindex (by dsimp only at hle; omega),
        fun hle => absurd hindex (by dsimp only at hle; omega)⟩
  · exact spec_sequenceSecond hvalues hsizes hwrap h hindex
  · rw [show index + 1 + 1 = index + 2 from rfl, List.drop_eq_nil_of_le (Nat.le_add_left 2 index)]
    exact Spec.pure (spec_sequenceEnd hvalues hwrap h (by omega))

end Sequence

/-! ### A job -/

/-- The sequence in the mutator of a fuzzer. -/
def RootStaged (entry : Sample) (values : List Sample) (tr : List FuzzEvent) (s : FieldsTree) : Prop :=
  ∃ fields u v, s = .node fields [u, v] ∧ Staged entry values tr u

section Root

variable {entry : Sample} {values : List Sample} {tr : List FuzzEvent} {s : FieldsTree} {m n : ℕ}
  {repeater : ClassTree}

/-- The stage is a matter of the contexts and the index of the sequence, so a change of any
other field leaves it.  -/
theorem Staged.sameContext {u u' : FieldsTree} (h : Staged entry values tr u)
    (hsame : Tree.Matches SameContext u u') : Staged entry values tr u' := by
  obtain ⟨fields, byteFlip, us₀, interestingValue, us₁, rfl, h⟩ := h
  obtain ⟨fields', us'⟩ := u'
  obtain ⟨hfields, hus'⟩ := Tree.matches_node.1 hsame
  obtain ⟨⟨byteFlip', us₀'⟩, rest, h₀, hrest, rfl⟩ := List.forall₂_cons_left_iff.1 hus'
  obtain ⟨⟨interestingValue', us₁'⟩, rest', h₁, hrest', rfl⟩ := List.forall₂_cons_left_iff.1 hrest
  obtain rfl := List.forall₂_nil_left_iff.1 hrest'
  have hcontext₀ := (Tree.matches_node.1 h₀).1.context
  have hcontext₁ := (Tree.matches_node.1 h₁).1.context
  refine ⟨_, _, _, _, _, rfl, ?_, ?_, ?_, ?_⟩
  · rw [hcontext₀]
    exact h.bytes
  · rw [hcontext₁]
    exact h.values
  · rw [hcontext₀, hfields.currentMutatorIndex]
    exact h.first
  · rw [hcontext₁, hfields.currentMutatorIndex]
    exact h.second

/-- Taking the sample up changes nothing in the sequence. -/
theorem Staged.initRound {u : FieldsTree} (h : Staged entry values tr u) :
    Staged entry values tr (updateFields initRoundFields (sequenceOf values) u) := by
  obtain ⟨fields, byteFlip, us₀, interestingValue, us₁, rfl, h⟩ := h
  exact ⟨_, _, _, _, _, rfl, h.bytes, h.values, h.first, h.second⟩

/-- A hot offset makes the sequence begin again. -/
theorem Staged.addHotOffset {u : FieldsTree} (h : Staged entry values tr u) (offset : ℕ) :
    Staged entry values (tr ++ [.addHotOffset offset])
      (updateFields (addHotOffsetFields offset) (sequenceOf values) u) := by
  obtain ⟨fields, byteFlip, us₀, interestingValue, us₁, rfl, h⟩ := h
  refine ⟨_, _, _, _, _, rfl, h.bytes.addHotOffset offset, h.values.addHotOffset offset, ?_, ?_⟩
  · exact fun hle => absurd hle (Nat.not_succ_le_zero 0)
  · exact fun hle => absurd hle (Nat.not_succ_le_zero 1)

/-- What the mutator of a fuzzer answers: one of the deterministic rounds is given to another
mutator only when the sequence is at its end. -/
def RootAnswers (entry : Sample) (values : List Sample) (tr : List FuzzEvent) (round m : ℕ)
    (answer : Answer) : Prop :=
  RootStaged entry values (tr ++ [.mutate answer.ret answer.sample]) answer.state ∧
    (round < m → answer.ret = true ∧
      ((answer.state.label.last = some 0 ∧
          (ByteMade entry tr answer.sample ∨ ValueMade entry values tr answer.sample)) ∨
        (answer.state.label.last = some 1 ∧ BytesTried entry tr ∧ ValuesTried entry values tr)))

/-- **A call of the whole mutator** answers with what the stage has next, as long as there
is something, and from then on with what the random mutators make.  -/
theorem spec_root {env : Surroundings} (hlt : m + n < 2 ^ 64) (hvalues : values ≠ [])
    (hsizes : ∀ value ∈ values, value.size ≤ 4)
    (hwrap : ∀ offset, .addHotOffset offset ∈ tr → offset + 24 < 2 ^ 64) (h : RootStaged entry values tr s) :
    Spec (mutate env (.node (.dtermininsticNondeterministicMutator m n) [sequenceOf values, repeater]) s entry)
      (RootAnswers entry values tr s.label.currentRound m) fun _ => True := by
  obtain ⟨fields, u, v, rfl, h⟩ := h
  rw [mutate_node, MutatorClass.mutate, dtermininsticNondeterministicMutate]
  -- the second mutator leaves the sequence as it is
  have hround : ∀ u₁ sample, (Staged entry values tr u₁) →
      (fields.currentRound < m → BytesTried entry tr ∧ ValuesTried entry values tr) →
      Spec (nondeterministicRound m n ([sequenceOf values, repeater].map (mutate env))
          (.node fields [u₁, v]) sample)
        (RootAnswers entry values tr fields.currentRound m) fun _ => True := by
    intro u₁ sample hu₁ htried
    rw [nondeterministicRound, wrap_of_lt hlt]
    split
    · refine (spec_callChild (Q := fun _ => True) rfl rfl (Spec.any _)).bind ?_
      rintro ⟨ret, sample', us'⟩ ⟨v', -, hset⟩
      obtain rfl : us' = [u₁, v'] := hset
      refine Spec.pure ⟨⟨_, _, _, rfl, hu₁.snoc fun offset => by rintro ⟨⟩⟩, fun hm => ⟨rfl, Or.inr ⟨rfl, ?_⟩⟩⟩
      exact htried hm
    · rename_i hdone
      refine Spec.pure ⟨⟨_, _, _, rfl, hu₁.snoc fun offset => by rintro ⟨⟩⟩, fun hm => ?_⟩
      exact absurd (Nat.lt_add_right n hm) hdone
  split
  · rename_i hm
    refine (spec_callChild rfl rfl (spec_sequence hvalues hsizes hwrap h)).bind ?_
    rintro ⟨ret, sample, us'⟩ ⟨u', hanswers, hset⟩
    obtain rfl : us' = [u', v] := hset
    dsimp only
    rcases hanswers with ⟨hret, hmade, hstaged⟩ | ⟨hret, hbytes, hvalues', hstaged⟩
    · obtain rfl : ret = true := hret
      rw [if_pos rfl]
      exact Spec.pure ⟨⟨_, _, _, rfl, hstaged⟩, fun _ => ⟨rfl, Or.inl ⟨rfl, hmade⟩⟩⟩
    · obtain rfl : ret = false := hret
      rw [if_neg Bool.false_ne_true]
      exact hround u' sample hstaged fun _ => ⟨hbytes, hvalues'⟩
  · rename_i hm
    exact hround u entry h fun hlt => absurd hlt hm

end Root

/-- In every run the sequence has passed only what is at its end: a child is left for good
when it has answered `false`, with all pairs of its windows tried.  -/
theorem staged_of_run {entry : Sample} {values : List Sample} {m n : ℕ} {repeater : ClassTree}
    {given : Surroundings → Prop} (hlt : m + n < 2 ^ 64) (hvalues : values ≠ [])
    (hsizes : ∀ value ∈ values, value.size ≤ 4) (hentry : entry.size < 2 ^ 63)
    {s : FieldsTree} {tr : List FuzzEvent}
    (hrun : Run (FuzzStep (.node (.dtermininsticNondeterministicMutator m n) [sequenceOf values, repeater])
      given entry)
      (createState (.node (.dtermininsticNondeterministicMutator m n) [sequenceOf values, repeater])) tr s) :
    RootStaged entry values tr s ∧ ∀ offset, .addHotOffset offset ∈ tr → offset + 24 < 2 ^ 64 := by
  refine hrun.invariant (fun tr s => RootStaged entry values tr s ∧
    ∀ offset, FuzzEvent.addHotOffset offset ∈ tr → offset + 24 < 2 ^ 64) ?_ ?_
  · refine ⟨⟨_, _, _, rfl, _, _, _, _, _, rfl, tried_empty _ _, tried_empty _ _, ?_, ?_⟩,
      fun offset h => absurd h List.not_mem_nil⟩
    · exact fun hle => absurd hle (Nat.not_succ_le_zero 0)
    · exact fun hle => absurd hle (Nat.not_succ_le_zero 1)
  rintro tr s event s' ⟨hs, hwrap⟩ hstep
  cases hstep with
  | @initRound s' hsame =>
      have hevent : ∀ offset, FuzzEvent.initRound ≠ .addHotOffset offset := fun offset => by rintro ⟨⟩
      refine ⟨?_, fun offset h => hwrap offset ((mem_snoc_hot hevent offset).1 h)⟩
      obtain ⟨fields, u, v, rfl, hstaged⟩ := hs
      obtain ⟨fields', us'⟩ := s'
      obtain ⟨-, hus'⟩ := Tree.matches_node.1 hsame
      obtain ⟨u', rest, hu', hrest, rfl⟩ := List.forall₂_cons_left_iff.1 hus'
      obtain ⟨v', rest', -, -, rfl⟩ := List.forall₂_cons_left_iff.1 hrest
      exact ⟨_, _, _, rfl, ((hstaged.sameContext hu').initRound).snoc hevent⟩
  | @addHotOffset offset hoffset =>
      obtain ⟨fields, u, v, rfl, hstaged⟩ := hs
      refine ⟨⟨_, _, _, rfl, hstaged.addHotOffset offset⟩, fun offset' h => ?_⟩
      rcases List.mem_append.1 h with h | h
      · exact hwrap offset' h
      · cases List.mem_singleton.1 h
        omega
  | @mutate env draws answer draws' _ hok =>
      have hanswers := (spec_root hlt hvalues hsizes hwrap hs).of_ok hok
      exact ⟨hanswers.1, fun offset h => hwrap offset ((mem_snoc_hot (fun offset => by rintro ⟨⟩) offset).1 h)⟩

/-- The interesting values have at most four bytes.  -/
theorem defaultInterestingValues_le {value : Sample} (h : value ∈ defaultInterestingValues) : value.size ≤ 4 := by
  have := size_defaultInterestingValues h
  omega

/-- **The deterministic stage is a full one.**  In every run a deterministic round goes to the
sequence as long as it has anything left: first the bytes of the windows of all hot offsets so
far, then, when each of those has had all 256 values, the interesting values.  To the mutators
that draw it goes only when each of those has been written at each position, too. -/
theorem job_deterministic {o : BinaryOptions} (ho : o.Ok) (hdeterministic : o.deterministic = true)
    {given : Surroundings → Prop} {entry : Sample} (hentry : entry.size < 2 ^ 63) {s : FieldsTree}
    {tr : List FuzzEvent}
    (hrun : Run (FuzzStep (createMutator o) given entry) (createState (createMutator o)) tr s)
    {env : Surroundings} {draws draws' : List UInt32} {answer : Answer}
    (hok : mutate env (createMutator o) s entry draws = .ok (answer, draws'))
    (hround : s.label.currentRound < o.deterministicRounds) :
    answer.ret = true ∧
      ((answer.state.label.last = some 0 ∧ (ByteMade entry tr answer.sample ∨
          ValueMade entry defaultInterestingValues tr answer.sample)) ∨
        (answer.state.label.last = some 1 ∧ BytesTried entry tr ∧
          ValuesTried entry defaultInterestingValues tr)) := by
  have hle := deterministicRounds_le o
  have hlt := ho.nrounds
  have hmutator : createMutator o = .node (.dtermininsticNondeterministicMutator o.deterministicRounds
      (o.nrounds - o.deterministicRounds)) [sequenceOf defaultInterestingValues, o.repeater] := by
    rw [createMutator, if_pos hdeterministic]
    rfl
  have hsum : o.deterministicRounds + (o.nrounds - o.deterministicRounds) < 2 ^ 64 := by omega
  rw [hmutator] at hrun hok
  have hvalues := defaultInterestingValues_ne_nil
  have hsizes := fun value => @defaultInterestingValues_le value
  generalize defaultInterestingValues = values at hvalues hsizes hrun hok
  obtain ⟨hstaged, hwrap⟩ := staged_of_run hsum hvalues hsizes hentry hrun
  exact ((spec_root hsum hvalues hsizes hwrap hstaged).of_ok hok).2 hround

/-- One round, and that is a deterministic one. -/
def deterministicOptions : BinaryOptions := ⟨true, true, 1, some [], false, false⟩

/-- The options are ones that `CreateMutator` accepts.  -/
theorem deterministicOptions_ok : deterministicOptions.Ok :=
  ⟨by decide, oneRoundOptions_ok.dictionary⟩

/-- With a hot offset the first byte is written: the deterministic part has its first
window, at the beginning of the sample, and gives the value 0 to the byte there.  -/
theorem job_deterministic_first : ∃ answer : Answer, answer.sample = Sample.init [0, 2, 3] ∧
    answer.ret = true ∧
      ((answer.state.label.last = some 0 ∧
          (ByteMade (Sample.init [1, 2, 3]) [.initRound, .addHotOffset 0] answer.sample ∨
          ValueMade (Sample.init [1, 2, 3]) defaultInterestingValues [.initRound, .addHotOffset 0] answer.sample)) ∨
        (answer.state.label.last = some 1 ∧ BytesTried (Sample.init [1, 2, 3]) [.initRound, .addHotOffset 0] ∧
          ValuesTried (Sample.init [1, 2, 3]) defaultInterestingValues [.initRound, .addHotOffset 0])) := by
  have hrun : ((mutate plainSurroundings (createMutator deterministicOptions)
      (updateFields (addHotOffsetFields 0) (createMutator deterministicOptions)
        (updateFields initRoundFields (createMutator deterministicOptions)
          (createState (createMutator deterministicOptions))))
      (Sample.init [1, 2, 3]) []).toOption.map fun r => r.1.sample) = some (Sample.init [0, 2, 3]) := by
    decide +kernel
  rcases hmutate : mutate plainSurroundings (createMutator deterministicOptions)
      (updateFields (addHotOffsetFields 0) (createMutator deterministicOptions)
        (updateFields initRoundFields (createMutator deterministicOptions)
          (createState (createMutator deterministicOptions))))
      (Sample.init [1, 2, 3]) [] with e | ⟨answer, draws⟩
  · rw [hmutate] at hrun
    cases hrun
  · rw [hmutate] at hrun
    exact ⟨answer, Option.some.inj hrun, job_deterministic deterministicOptions_ok rfl (by decide)
      (.cons (.initRound (matches_self _)) (.single (@FuzzStep.addHotOffset _ (fun _ => True) _ _ _ (by decide))))
      hmutate (by decide)⟩

end Mutators
end Jackalope
