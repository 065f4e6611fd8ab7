/-
# Mutators stay in their samples

What every mutator that is put together as `main.cpp` does it has in common: no draw takes a
call of `Mutate` out of a block of memory, and there is a size that no sample exceeds.

The leaves keep below `Sample::max_size`, or do not make a sample larger that is above it.  The
deterministic mutators write wherever a region is, and `RangeMutator` puts a part back where
its range begins, so a sample may become larger than `max_size` before `FuzzJob` looks at its
size; `room` is how large.
-/

import Jackalope.Mutators.Classes

namespace Jackalope
namespace Mutators

open Foundation Foundation.Consumer Foundation.Buffer

/-! ### Splicing a sample of any size -/

section Splice

variable {maxSize b : ℕ} {inout other : Sample} (hmax : maxSize ≤ b) (hb : b < 2 ^ 31)
  (hin : inout.size ≤ b) (hother : other.size ≤ maxSize)

include hmax hb hin hother

/-- Splicing at two points writes nothing behind its block, and the result is cut at
`max_size`. Both points lie in their samples.  -/
theorem spec_spliceAtPoint {point1 point2 : ℕ} (h₁ : point1 ≤ inout.size) (h₂ : point2 ≤ other.size) :
    Spec (spliceAtPoint maxSize inout other point1 point2) (fun r => r.2.size ≤ b) (· = .noDraws) := by
  have hlen : inout.bytes.length = inout.size := rfl
  have hlen' : other.bytes.length = other.size := rfl
  rw [spliceAtPoint]
  dsimp only
  rw [minus_of_le h₂ (by omega), wrap_of_lt (by omega)]
  have hrest : (slice other.bytes point2 (other.size - point2)).length = other.size - point2 :=
    length_slice (by omega)
  split
  · rw [memcpy_of (by omega) (by omega), access_some, pure_bind, setBytes_of (by
      rw [List.length_append, List.length_append, List.length_take, List.length_drop, hrest]
      omega), pure_bind]
    refine Spec.pure ?_
    dsimp only
    rw [Sample.size, Sample.init_bytes (by
      rw [List.length_append, List.length_append, List.length_take, List.length_drop, hrest]
      omega), List.length_append, List.length_append, List.length_take, List.length_drop, hrest]
    omega
  · rw [memcpy_malloc (by omega) (by omega), access_some, pure_bind, slice_zero,
      memcpy_written (by rw [List.length_take]; omega) (by omega) (by omega), access_some, pure_bind,
      setBytes_written (by omega) (by rw [List.length_append, List.length_take, hrest]; omega), pure_bind]
    refine Spec.pure ?_
    dsimp only
    split
    · rw [Sample.size_trim]
      omega
    · omega

/-- Splicing a block into the place of another writes nothing behind its block: the three
parts have together the size that was allocated.  -/
theorem spec_spliceDisplaced {block1 block2 : ℕ × ℕ} (h₁ : block1.1 + block1.2 ≤ inout.size)
    (h₂ : block2.1 + block2.2 ≤ other.size) :
    Spec (spliceDisplaced maxSize inout other block1 block2) (fun r => r.2.size ≤ b) (· = .noDraws) := by
  have hlen : inout.bytes.length = inout.size := rfl
  have hlen' : other.bytes.length = other.size := rfl
  have hexchange : (exchange inout.bytes other.bytes block1 block2).length =
      block1.1 + block2.2 + (inout.size - (block1.1 + block1.2)) := by
    rw [exchange, List.length_append, List.length_append, List.length_take, List.length_drop,
      length_slice (by omega)]
    omega
  rw [spliceDisplaced]
  rw [wrap_of_lt (by omega : block1.1 + block1.2 < 2 ^ 64), minus_of_le h₁ (by omega),
    wrap_of_lt (by omega : block1.1 + block2.2 < 2 ^ 64), wrap_of_lt (by omega),
    memcpy_malloc (by omega) (by omega), access_some, pure_bind, slice_zero,
    memcpy_written (by rw [List.length_take]; omega) (by omega) (by omega),
    access_some, pure_bind, memcpy_written (by
      rw [List.length_append, List.length_take, length_slice (by omega)]
      omega) (by omega) (by omega), access_some, pure_bind,
    slice_to_end (by omega : inout.bytes.length ≤
      block1.1 + block1.2 + (inout.size - (block1.1 + block1.2))), written_full (by omega)]
  have hdef : inout.bytes.take block1.1 ++ slice other.bytes block2.1 block2.2 ++
      inout.bytes.drop (block1.1 + block1.2) = exchange inout.bytes other.bytes block1 block2 := rfl
  rw [hdef]
  generalize exchange inout.bytes other.bytes block1 block2 = bytes at hexchange
  by_cases hover : block1.1 + block2.2 + (inout.size - (block1.1 + block1.2)) > maxSize
  · have hcut : (bytes.take maxSize).length = maxSize := by
      rw [List.length_take]
      omega
    rw [if_pos hover, realloc_of_ge (by omega), setBytes_of hcut, pure_bind]
    refine Spec.pure ?_
    dsimp only
    rw [Sample.size, Sample.init_bytes (by omega), hcut]
    exact hmax
  · rw [if_neg hover, setBytes_of hexchange, pure_bind]
    refine Spec.pure ?_
    dsimp only
    rw [Sample.size, Sample.init_bytes (by omega)]
    omega

/-- **`Splice`** draws its points within both samples, so each of its four variants reads
and writes within them.  Both samples have a byte at least, or it does nothing.  -/
theorem spec_splice {points : ℤ} (hpoints : points = 1 ∨ points = 2) (displace : Bool) :
    Spec (splice maxSize points displace inout other) (fun r => r.2.size ≤ b) (· = .noDraws) := by
  rw [splice]
  split
  · exact Spec.pure hin
  split
  · exact Spec.pure hin
  rename_i hpos hpos'
  by_cases hone : points = 1
  · rw [if_pos hone]
    refine (spec_drawPoints (by omega) (by omega) (by omega) (by omega)).bind fun point hpoint => ?_
    exact spec_spliceAtPoint hmax hb hin hother hpoint.1.le hpoint.2.1.le
  rw [if_neg hone, if_neg (not_not.2 (hpoints.resolve_left hone))]
  cases displace with
  | true =>
      rw [if_pos rfl]
      refine (spec_getRandBlock le_rfl (fun h => h) (by omega) (by omega)).bind fun block1 h₁ => ?_
      rcases block1 with _ | block1
      · exact Spec.pure hin
      refine (spec_getRandBlock le_rfl (fun h => h) (by omega) (by omega)).bind fun block2 h₂ => ?_
      rcases block2 with _ | block2
      · exact Spec.pure hin
      · exact spec_spliceDisplaced hmax hb hin hother (BlockOf.inside h₁) (BlockOf.inside h₂)
  | false =>
      rw [if_neg Bool.false_ne_true]
      refine (spec_getRandBlock (by decide) (fun h => h) (by omega) (by omega)).bind fun block h => ?_
      rcases block with _ | block
      · exact Spec.pure hin
      have hinside : block.1 + block.2 ≤ other.size := BlockOf.inside h
      have hlen := (getElem?_overlay inout.bytes other.bytes (Nat.le_add_right block.1 block.2) hinside).1
      have hin' : inout.bytes.length ≤ b := hin
      dsimp only
      rw [spliceInPlace_eq (by omega : maxSize < 2 ^ 31) hother hinside]
      refine Spec.pure ?_
      show (Sample.init _).bytes.length ≤ b
      rw [Sample.init_bytes (by omega), hlen]
      omega

omit hother in
/-- **`SpliceMutator`** takes one of the samples of the corpus; with none of them it answers
`false`. -/
theorem spec_spliceMutate {points : ℤ} (hpoints : points = 1 ∨ points = 2) (displaced : UInt32 → Bool)
    {allSamples : List Sample} (hlength : allSamples.length < 2 ^ 31)
    (hall : ∀ other ∈ allSamples, other.size ≤ maxSize) :
    Spec (spliceMutate maxSize points displaced allSamples inout) (fun r => r.2.size ≤ b)
      (· = .noDraws) := by
  rw [spliceMutate]
  split
  · exact Spec.pure hin
  rename_i hne
  have hpick := @spec_pickSample allSamples hne hlength
  generalize pickSample allSamples = pick at hpick
  exact spec_rand.bind fun r _ => hpick.bind fun other hmem =>
    spec_splice hmax hb hin (hall other hmem) hpoints (displaced r)

end Splice

/-! ### Leaves -/

/-- The parameters of a constructor are as they must be. -/
def Leaf.Ok : Leaf → Prop
  | .byteFlipMutator | .arithmeticMutator => True
  | .appendMutator min max | .blockInsertMutator min max | .blockFlipMutator min max _ => Bounds min max
  | .blockDuplicateMutator minBlockSize maxBlockSize minDuplicateCnt maxDuplicateCnt =>
      Bounds minBlockSize maxBlockSize ∧ Bounds minDuplicateCnt maxDuplicateCnt
  | .interestingValueMutator values => values.length < 2 ^ 31 ∧ ∀ value ∈ values, 0 < value.size
  | .spliceMutator points _ => points = 1 ∨ points = 2

/-- What surrounds a mutation: `max_size` is an `int`, and the samples of the corpus are no
larger. -/
structure Surroundings.Ok (maxSize maxFrom : ℕ) (env : Surroundings) : Prop where
  maxSize_eq : env.maxSize = maxSize
  length_allSamples : env.allSamples.length < 2 ^ 31
  allSamples : ∀ other ∈ env.allSamples, other.size ≤ maxSize
  ranges : ∀ range ∈ env.ranges, range.rangeFrom ≤ maxFrom

/-- Writing within a sample keeps its size.  -/
theorem WritesBlock.size {sample : Sample} {P : ℕ → Bytes → Prop} {result : Bool × Sample}
    (h : WritesBlock sample P result) : result.2.size = sample.size := by
  rcases h with rfl | ⟨pos, data, hfits, -, rfl⟩
  · rfl
  · exact size_overwritten hfits

section Leaves

variable {maxSize maxFrom b : ℕ} {env : Surroundings} {sample : Sample} (henv : env.Ok maxSize maxFrom)
  (hmax : maxSize ≤ b) (hb : b < 2 ^ 31) (hsize : sample.size ≤ b)

include hmax hsize

/-- A mutator that adds nothing to a sample of the maximal size or more. -/
theorem spec_addsBlock {m : MutateSample} (hfull : sample.size ≥ maxSize → m sample = pure (true, sample))
    (hroom : sample.size < maxSize → Spec (m sample) (fun r => r.2.size ≤ maxSize) (· = .noDraws)) :
    Spec (m sample) (fun r => r.2.size ≤ b) (· = .noDraws) := by
  by_cases hlt : sample.size < maxSize
  · exact (hroom hlt).mono fun r hr => hr.trans hmax
  · rw [hfull (Nat.not_lt.1 hlt)]
    exact Spec.pure hsize

include henv hb

/-- **Leaves** make no sample larger than `max_size`, unless it was, and read and write
nothing outside of their samples, whatever they draw.  -/
theorem spec_leaf {l : Leaf} (hl : l.Ok) :
    Spec (l.mutate env sample) (fun r => r.2.size ≤ b) (· = .noDraws) := by
  have hsize' : sample.size < 2 ^ 31 := by omega
  obtain ⟨maxSize', allSamples, ranges, repeats⟩ := env
  obtain ⟨rfl, hlength, hall, -⟩ := henv
  dsimp only at hmax hlength hall
  have hwrites : ∀ {m : MutateSample} {P : ℕ → Bytes → Prop},
      Spec (m sample) (WritesBlock sample P) (· = .noDraws) →
      Spec (m sample) (fun r => r.2.size ≤ b) (· = .noDraws) := fun h =>
    h.mono fun r hr => hr.size.le.trans hsize
  cases l with
  | byteFlipMutator => exact hwrites (spec_byteFlipMutate sample hsize')
  | arithmeticMutator => exact hwrites (spec_arithmeticMutate sample hsize')
  | blockFlipMutator min max uniform => exact hwrites (spec_blockFlipMutate sample hsize' hl uniform)
  | interestingValueMutator values =>
      exact hwrites (spec_interestingValueMutate sample hsize' hl.1 hl.2)
  | appendMutator min max =>
      refine spec_addsBlock hmax hsize (m := appendMutate maxSize' min max)
        (fun hfull => if_pos hfull) fun hlt => ?_
      rw [appendMutate_eq (by omega) sample hl]
      refine (spec_appendMutator (by omega) sample hlt.le hl).mono fun r hr => ?_
      obtain ⟨-, ins, -, hle, -⟩ := hr
      exact hle
  | blockInsertMutator min max =>
      refine spec_addsBlock hmax hsize (m := blockInsertMutate maxSize' min max)
        (fun hfull => if_pos hfull) fun hlt => ?_
      rw [blockInsertMutate_eq (by omega) sample hl]
      refine (spec_blockInsertion (by omega) sample hlt.le hl).mono fun r hr => ?_
      obtain ⟨position, -, ins, -, hle, -⟩ := hr
      exact hle
  | blockDuplicateMutator minBlockSize maxBlockSize minDuplicateCnt maxDuplicateCnt =>
      refine spec_addsBlock hmax hsize
        (m := blockDuplicateMutate maxSize' minBlockSize maxBlockSize minDuplicateCnt maxDuplicateCnt)
        (fun hfull => if_pos hfull) fun hlt => ?_
      rw [blockDuplicateMutate_eq (by omega) sample hl.1 hl.2]
      refine (spec_blockDuplication (by omega) sample hlt.le hl.1 hl.2).mono fun r hr => ?_
      rcases hr with ⟨rfl, -⟩ | ⟨-, blockpos, blocksize, blockcount, -, -, -, -, -, -, hle, -⟩
      · exact hlt.le
      · exact hle
  | spliceMutator points displaced =>
      exact spec_spliceMutate hmax hb hsize hl displaced hlength hall

end Leaves

/-! ### Regions -/

/-- No region ends behind a position. -/
def RegionsEnd (maxEnd : ℕ) (context : BaseDeterministicContext) : Prop :=
  ∀ r ∈ context.regions, r.regionEnd ≤ maxEnd

/-- Where regions end is a matter of their bounds.  -/
theorem regionsEnd_iff_bounds {maxEnd : ℕ} {context : BaseDeterministicContext} :
    RegionsEnd maxEnd context ↔ ∀ bound ∈ bounds context.regions, bound.2 ≤ maxEnd := by
  rw [bounds, List.forall_mem_map]
  exact Iff.rfl

/-- `GetNextByteToMutate` leaves the regions where they are. -/
theorem RegionsEnd.getNextByteToMutate {maxEnd : ℕ} {context : BaseDeterministicContext}
    (h : RegionsEnd maxEnd context) (maxProgress : ℕ) :
    RegionsEnd maxEnd (context.getNextByteToMutate maxProgress).2 := by
  rw [regionsEnd_iff_bounds, bounds_getNextByteToMutate, ← regionsEnd_iff_bounds]
  exact h

/-- A window ends 20 positions behind its offset, and the offset is one of the sample, so
all regions end before a bound that the sample gives.  -/
theorem RegionsEnd.addHotOffset {maxEnd offset : ℕ} {context : BaseDeterministicContext}
    (h : RegionsEnd maxEnd context) (hoffset : offset + 20 ≤ maxEnd) :
    RegionsEnd maxEnd (context.addHotOffset offset) := by
  have hend : newRegionEnd offset ≤ maxEnd := (Nat.mod_le _ _).trans hoffset
  intro r hr
  have hr' : r ∈ addRegion (newRegionStart offset) (newRegionEnd offset) context.regions := hr
  have hregions : ∀ x ∈ context.regions, x.regionEnd ≤ maxEnd := h
  have hadds := addsRegion_addRegion (newRegionStart offset) (newRegionEnd offset) context.regions
  generalize addRegion (newRegionStart offset) (newRegionEnd offset) context.regions = rs' at hr' hadds
  generalize context.regions = rs at hregions hadds
  cases hadds with
  | appended =>
      rcases List.mem_append.1 hr' with hr' | hr'
      · exact hregions r hr'
      · rw [List.mem_singleton.1 hr']
        exact hend
  | @inserted pre x post =>
      rcases List.mem_append.1 hr' with hr' | hr'
      · exact hregions r (List.mem_append_left _ hr')
      rcases List.mem_cons.1 hr' with rfl | hr'
      · exact (Nat.min_le_left _ _).trans hend
      · exact hregions r (List.mem_append_right _ hr')
  | absorbed => exact hregions r hr'
  | @extended pre x post =>
      rcases List.mem_append.1 hr' with hr' | hr'
      · exact hregions r (List.mem_append_left _ hr')
      rcases List.mem_cons.1 hr' with rfl | hr'
      · exact hend
      · exact hregions r (List.mem_append_right _ (List.mem_cons_of_mem _ hr'))

/-- **Where a deterministic mutator writes**: before the end of a region, and a value that
there is.  What it writes to may be behind the end of the sample, which is enlarged then.
-/
theorem getNextByteToMutate_lt {maxEnd maxProgress pos progress : ℕ}
    {context context' : BaseDeterministicContext} (h : RegionsEnd maxEnd context)
    (hM : 1 ≤ maxProgress)
    (hfound : context.getNextByteToMutate maxProgress = (some (pos, progress), context')) :
    pos < maxEnd ∧ progress < maxProgress := by
  rw [BaseDeterministicContext.getNextByteToMutate] at hfound
  rcases scan_cases maxProgress (context.regions.drop context.curRegion) with
    ⟨hscan, -⟩ | ⟨pre, r, post, hdrop, -, hlt, hscan⟩
  · rw [hscan] at hfound
    cases hfound
  · rw [hscan] at hfound
    cases hfound
    have hr : r ∈ context.regions :=
      List.mem_of_mem_drop (hdrop ▸ List.mem_append_right _ List.mem_cons_self)
    rw [regionEnd_advance] at hlt
    refine ⟨hlt.trans_le (h r hr), ?_⟩
    unfold MutateRegion.advance
    split
    · exact hM
    · omega

/-! ### How large a sample becomes -/

/-- The largest size, from the sizes that the children need.  A region ends at `maxEnd` or
before, and a range begins at `maxFrom` or before. -/
def MutatorClass.room (maxSize maxFrom maxEnd : ℕ) : MutatorClass → List ℕ → ℕ
  | .leaf _, _ => maxSize
  | .deterministicByteFlipMutator, _ => maxEnd
  | .deterministicInterestingValueMutator values, _ => maxEnd + (values.map Sample.size).foldr max 0
  | .rangeMutator, rooms => maxFrom + rooms.foldr max 0
  | _, rooms => rooms.foldr max 0

def room (maxSize maxFrom maxEnd : ℕ) : ClassTree → ℕ :=
  Tree.fold (MutatorClass.room maxSize maxFrom maxEnd)

/-- The room that a mutator needs, from the room of its children.  -/
theorem room_node (maxSize maxFrom maxEnd : ℕ) (c : MutatorClass) (ts : List ClassTree) :
    room maxSize maxFrom maxEnd (.node c ts) =
      c.room maxSize maxFrom maxEnd (ts.map (room maxSize maxFrom maxEnd)) := Tree.fold_node _ c ts

/-- Each of some numbers is at most the largest.  -/
theorem le_foldr_max {n : ℕ} {ns : List ℕ} (h : n ∈ ns) : n ≤ ns.foldr max 0 := by
  induction ns with
  | nil => cases h
  | cons m ns ih =>
      rcases List.mem_cons.1 h with rfl | h
      · exact le_max_left _ _
      · exact (ih h).trans (le_max_right _ _)

/-- The parameters of the classes are as they must be. -/
def MutatorClass.ParametersOk : MutatorClass → Prop
  | .leaf l => l.Ok
  | .deterministicInterestingValueMutator values => values ≠ []
  | _ => True

/-- The state has the shape of the mutator, and no region ends behind `maxEnd`. -/
abbrev StateEnds (maxEnd : ℕ) (t : ClassTree) (s : FieldsTree) : Prop :=
  Tree.Matches (fun _ fields => RegionsEnd maxEnd fields.context) t s

/-- A part of the sample is put back where it was, and the sample is made longer for it. -/
theorem spec_putBack {range : Range} {sample part : Sample} {b : ℕ} (hb : b < 2 ^ 31)
    (hsize : sample.size ≤ b) (hpart : range.rangeFrom + part.size ≤ b) :
    Spec (putBack range sample part) (fun sample' => sample'.size ≤ b) (· = .noDraws) := by
  have hwrap := wrap_of_lt (by omega : range.rangeFrom + part.size < 2 ^ 64)
  have hextend := size_extend sample (by omega : range.rangeFrom + part.size < 2 ^ 64)
  rw [putBack, hwrap]
  show Spec (copyInto (extend sample (range.rangeFrom + part.size)) range.rangeFrom part.bytes) _ _
  have hfits : range.rangeFrom + part.bytes.length ≤ (extend sample (range.rangeFrom + part.size)).size := by
    rw [hextend]
    exact le_max_right _ _
  rw [copyInto, if_pos hfits]
  refine Spec.pure ?_
  show (overwritten (extend sample (range.rangeFrom + part.size)) range.rangeFrom part.bytes).size ≤ b
  rw [size_overwritten hfits, hextend]
  omega

/-- Bytes are written behind the end of a sample, which is made longer for them. -/
theorem memcpy_extend {sample : Sample} {pos : ℕ} {data : Bytes} (h : pos + data.length < 2 ^ 64) :
    memcpy (of (extend sample (pos + data.length)).bytes) pos (of data) 0 data.length =
        some (of (paste (extend sample (pos + data.length)).bytes pos data)) ∧
      setBytes (of (paste (extend sample (pos + data.length)).bytes pos data))
          (extend sample (pos + data.length)).size =
        pure (overwritten (extend sample (pos + data.length)) pos data) ∧
      (overwritten (extend sample (pos + data.length)) pos data).size =
        max sample.size (pos + data.length) := by
  have hextend := size_extend sample h
  have hfits : pos + data.length ≤ (extend sample (pos + data.length)).size := by
    rw [hextend]
    exact le_max_right _ _
  exact ⟨memcpy_paste hfits rfl, setBytes_paste hfits, by rw [size_overwritten hfits, hextend]⟩

/-- The sample that a call makes is no larger than `b`, and no region has moved. -/
def FitsIn (b maxEnd : ℕ) (t : ClassTree) (answer : Answer) : Prop :=
  answer.sample.size ≤ b ∧ StateEnds maxEnd t answer.state

section Deterministic

variable {b maxEnd : ℕ} {c : MutatorClass} {ts : List ClassTree} {us : List FieldsTree}
  {fields : Fields} {sample : Sample} (hb : b < 2 ^ 31) (hsize : sample.size ≤ b)
  (hregions : RegionsEnd maxEnd fields.context) (hus : List.Forall₂ (StateEnds maxEnd) ts us)

include hb hsize hregions hus

/-- The deterministic byte flip makes the sample no longer than to the end of a region,
where its cursor is.  -/
theorem fits_deterministicByteFlipMutate (hroom : maxEnd ≤ b) :
    Spec (deterministicByteFlipMutate (.node fields us) sample) (FitsIn b maxEnd (.node c ts))
      (· = .noDraws) := by
  rw [deterministicByteFlipMutate]
  dsimp only [Tree.label_node, Tree.children_node]
  have hafter := hregions.getNextByteToMutate 256
  rcases hfound : fields.context.getNextByteToMutate 256 with ⟨_ | ⟨pos, value⟩, context⟩
  · rw [hfound] at hafter
    exact Spec.pure ⟨hsize, .node hafter hus⟩
  · rw [hfound] at hafter
    have hpos := (getNextByteToMutate_lt hregions (by decide) hfound).1
    obtain ⟨-, hset, hlonger⟩ := @memcpy_extend sample pos [UInt8.ofNat value] (by
      rw [List.length_singleton]
      omega)
    rw [List.length_singleton] at hset hlonger
    have hextend : (if pos ≥ sample.size then sample.resize (pos + 1) else sample) =
        extend sample (pos + 1) := by
      rw [extend]
      by_cases hbehind : pos ≥ sample.size
      · rw [if_pos hbehind, if_pos (by omega)]
      · rw [if_neg hbehind, if_neg (by omega)]
    dsimp only
    rw [wrap_of_lt (by omega : pos + 1 < 2 ^ 64), hextend, store_paste (by
      show pos < (extend sample (pos + 1)).size
      rw [size_extend sample (by omega)]
      omega), access_some, pure_bind, hset, pure_bind]
    refine Spec.pure ⟨?_, .node hafter hus⟩
    rw [hlonger]
    omega

/-- The deterministic mutator of interesting values makes it longer by at most one value
from there: the sample is enlarged to where the value ends.  -/
theorem fits_deterministicInterestingValueMutate {values : List Sample} (hne : values ≠ [])
    (hroom : maxEnd + (values.map Sample.size).foldr max 0 ≤ b) :
    Spec (deterministicInterestingValueMutate values (.node fields us) sample)
      (FitsIn b maxEnd (.node c ts)) (· = .noDraws) := by
  rw [deterministicInterestingValueMutate]
  dsimp only [Tree.label_node, Tree.children_node]
  have hafter := hregions.getNextByteToMutate values.length
  rcases hfound : fields.context.getNextByteToMutate values.length with ⟨_ | ⟨pos, valueIndex⟩, context⟩
  · rw [hfound] at hafter
    exact Spec.pure ⟨hsize, .node hafter hus⟩
  · rw [hfound] at hafter
    obtain ⟨hpos, hindex⟩ := getNextByteToMutate_lt hregions (List.length_pos_iff.2 hne) hfound
    dsimp only
    rw [List.getElem?_eq_getElem hindex, access_some, pure_bind]
    have hmem := List.getElem_mem hindex
    generalize values[valueIndex] = value at hmem
    have hvalue : value.size ≤ (values.map Sample.size).foldr max 0 :=
      le_foldr_max (List.mem_map_of_mem hmem)
    have hlength : value.size = value.bytes.length := rfl
    obtain ⟨hcopy, hset, hlonger⟩ := @memcpy_extend sample pos value.bytes (by omega)
    rw [← hlength] at hcopy hset hlonger
    rw [wrap_of_lt (by omega : pos + value.size < 2 ^ 64)]
    have hextend : (if pos + value.size > sample.size then sample.resize (pos + value.size) else sample) =
        extend sample (pos + value.size) := rfl
    rw [hextend, hcopy, access_some, pure_bind, hset, pure_bind]
    refine Spec.pure ⟨?_, .node hafter hus⟩
    rw [hlonger]
    omega

end Deterministic

section Children

variable {env : Surroundings} {b maxEnd : ℕ} {c : MutatorClass} {ts : List ClassTree}
  {us : List FieldsTree} {fields : Fields} {sample : Sample} (hsize : sample.size ≤ b)
  (hregions : RegionsEnd maxEnd fields.context) (hus : List.Forall₂ (StateEnds maxEnd) ts us)
  (hchild : ∀ t ∈ ts, ∀ u sample, StateEnds maxEnd t u → sample.size ≤ b →
    Spec (mutate env t u sample) (FitsIn b maxEnd t) (· = .noDraws))

include hsize hus hchild

/-- **One child is called** with room for what it may make of the sample; its state stays
within its regions, and those of the others are not touched.  -/
theorem fits_callChild {i : ℕ} (hi : i < ts.length) :
    Spec (callChild (ts.map (mutate env)) i us sample)
      (fun r => r.2.1.size ≤ b ∧ List.Forall₂ (StateEnds maxEnd) ts r.2.2) (· = .noDraws) := by
  have ht := List.getElem?_eq_getElem hi
  obtain ⟨u, hu, htu⟩ := forall₂_getElem? hus ht
  refine (spec_callChild ht hu (hchild _ (List.getElem_mem hi) u sample htu hsize)).mono ?_
  rintro ⟨ret, sample', us'⟩ ⟨u', ⟨hsample, hends⟩, hset⟩
  obtain rfl : us' = us.set i u' := hset
  exact ⟨hsample, forall₂_set hus ht hends⟩

include hregions

/-- `NRoundMutator` passes the call on to its child, or leaves the sample alone when its
rounds are used up.  -/
theorem fits_nRoundMutate {n : ℕ} (hlength : ts.length = 1) :
    Spec (nRoundMutate n (ts.map (mutate env)) (.node fields us) sample) (FitsIn b maxEnd (.node c ts))
      (· = .noDraws) := by
  rw [nRoundMutate]
  split
  · exact Spec.pure ⟨hsize, .node hregions hus⟩
  · exact (fits_callChild hsize hus hchild (by omega)).bind fun r hr =>
      Spec.pure ⟨hr.1, .node hregions hr.2⟩

/-- The children from the current one on, as the loop goes through them: one of them makes
the sample, and the ones before have answered `false` and left it as it was.  -/
theorem fits_sequenceLoop {rest : List ClassTree}
    (hrest : ts.drop fields.currentMutatorIndex = rest) :
    Spec (sequenceLoop (rest.map (mutate env)) fields us sample) (FitsIn b maxEnd (.node c ts))
      (· = .noDraws) := by
  induction rest generalizing fields us sample with
  | nil => exact Spec.pure ⟨hsize, .node hregions hus⟩
  | cons t rest ih =>
      have ht : ts[fields.currentMutatorIndex]? = some t := by
        rw [← List.head?_drop, hrest]
        rfl
      have hnext : ts.drop (fields.currentMutatorIndex + 1) = rest := by
        rw [← List.drop_drop, hrest]
        rfl
      obtain ⟨u, hu, htu⟩ := forall₂_getElem? hus ht
      rw [List.map_cons, sequenceLoop, hu, access_some, pure_bind]
      refine (hchild t (List.mem_of_getElem? ht) u sample htu hsize).bind fun answer hanswer => ?_
      have hus' := forall₂_set hus ht hanswer.2
      dsimp only
      split
      · exact Spec.pure ⟨hanswer.1, .node hregions hus'⟩
      · exact ih hanswer.1 hregions hus' hnext

/-- The two mutators that select a child call it once.  -/
theorem fits_runSelected {i : ℕ} (hi : i < ts.length) :
    Spec (runSelected (ts.map (mutate env)) i (.node fields us) sample) (FitsIn b maxEnd (.node c ts))
      (· = .noDraws) :=
  (fits_callChild hsize hus hchild hi).bind fun _ hr => Spec.pure ⟨hr.1, .node hregions hr.2⟩

/-- `RepeatMutator` calls its child again and again: the room is enough for every sample
that fits, so what the child makes of one it may be given again.  -/
theorem fits_repeatMutate {repeats : UInt32 → Bool} (hlength : ts.length = 1) :
    Spec (repeatMutate repeats (ts.map (mutate env)) (.node fields us) sample)
      (FitsIn b maxEnd (.node c ts)) (· = .noDraws) := by
  rw [repeatMutate]
  refine (fits_callChild hsize hus hchild (by omega)).bind ?_
  rintro ⟨ret, sample', us'⟩ ⟨hsize', hus'⟩
  dsimp only
  split
  · refine Spec.loop (s := (1, us', sample')) (E := (· = Stop.noDraws))
      (fun x : ℕ × List FieldsTree × Sample =>
        x.2.2.size ≤ b ∧ List.Forall₂ (StateEnds maxEnd) ts x.2.1) rfl ?_ ⟨hsize', hus'⟩
    rintro ⟨n, us₁, sample₁⟩ ⟨hsize₁, hus₁⟩
    refine spec_rand.bind fun draw _ => ?_
    dsimp only
    split
    · exact (fits_callChild hsize₁ hus₁ hchild (by omega)).bind fun r₂ hr₂ => Spec.pure ⟨hr₂.1, hr₂.2⟩
    · exact Spec.pure ⟨hsize₁, .node hregions hus₁⟩
  · exact Spec.pure ⟨hsize', .node hregions hus'⟩

/-- The second part of `DtermininsticNondeterministicMutator` passes the call on to the
second child as long as there are rounds.  -/
theorem fits_nondeterministicRound {m n : ℕ} (hlength : ts.length = 2) :
    Spec (nondeterministicRound m n (ts.map (mutate env)) (.node fields us) sample)
      (FitsIn b maxEnd (.node c ts)) (· = .noDraws) := by
  rw [nondeterministicRound]
  split
  · exact (fits_callChild hsize hus hchild (by omega)).bind fun r hr =>
      Spec.pure ⟨hr.1, .node hregions hr.2⟩
  · exact Spec.pure ⟨hsize, .node hregions hus⟩

/-- `DtermininsticNondeterministicMutator`, whichever of its two children it calls, leaves a
sample that fits if both of them do.  -/
theorem fits_dtermininsticNondeterministicMutate {m n : ℕ} (hlength : ts.length = 2) :
    Spec (dtermininsticNondeterministicMutate m n (ts.map (mutate env)) (.node fields us) sample)
      (FitsIn b maxEnd (.node c ts)) (· = .noDraws) := by
  rw [dtermininsticNondeterministicMutate]
  split
  · refine (fits_callChild hsize hus hchild (by omega)).bind ?_
    rintro ⟨ret, sample', us'⟩ ⟨hsize', hus'⟩
    dsimp only
    split
    · exact Spec.pure ⟨hsize', .node hregions hus'⟩
    · exact fits_nondeterministicRound hsize' hregions hus' hchild hlength
  · exact fits_nondeterministicRound hsize hregions hus hchild hlength

end Children

/-- **`RangeMutator`**: its child needs `need`, wherever the range begins, so the sample is
at most as large as the last beginning of a range and that together.  -/
theorem fits_rangeMutateChild {env : Surroundings} {b maxSize maxFrom maxEnd need : ℕ}
    {c : MutatorClass} {ts : List ClassTree} {us : List FieldsTree} {fields : Fields}
    {sample : Sample} (henv : env.Ok maxSize maxFrom) (hb : b < 2 ^ 31) (hroom : maxFrom + need ≤ b)
    (hsize : sample.size ≤ b) (hregions : RegionsEnd maxEnd fields.context)
    (hus : List.Forall₂ (StateEnds maxEnd) ts us) (hlength : ts.length = 1)
    (hchild : ∀ b' ≤ b, need ≤ b' → ∀ t ∈ ts, ∀ u sample, StateEnds maxEnd t u → sample.size ≤ b' →
      Spec (mutate env t u sample) (FitsIn b' maxEnd t) (· = .noDraws)) :
    Spec (rangeMutateChild env.ranges (ts.map (mutate env)) (.node fields us) sample)
      (FitsIn b maxEnd (.node c ts)) (· = .noDraws) := by
  have hwhole : Spec (callChild (ts.map (mutate env)) 0 us sample >>= fun r =>
      pure ⟨r.1, r.2.1, .node fields r.2.2⟩) (FitsIn b maxEnd (.node c ts)) (· = .noDraws) :=
    (fits_callChild hsize hus (hchild b le_rfl (by omega)) (by omega)).bind fun r hr =>
      Spec.pure ⟨hr.1, .node hregions hr.2⟩
  rw [rangeMutateChild]
  split
  · exact hwhole
  rename_i hne
  refine (spec_randMod (List.length_pos_iff.2 hne)).bind fun i hi => ?_
  rw [List.getElem?_eq_getElem hi, access_some, pure_bind]
  have hfrom := henv.ranges _ (List.getElem_mem hi)
  generalize env.ranges[i] = range at hfrom
  split
  · exact hwhole
  have hcrop := size_crop_le sample range
  refine (fits_callChild (b := b - range.rangeFrom) (by omega) hus (hchild _ (by omega) (by omega))
    (by omega)).bind fun r hr => ?_
  have hpart : range.rangeFrom + r.2.1.size ≤ b := by
    have := hr.1
    omega
  exact (spec_putBack hb hsize hpart).bind fun sample' hsample' =>
    Spec.pure ⟨hsample', .node hregions hr.2⟩

/-- **No draw takes a mutator out of bounds**, and the samples that it makes are no larger than
`room` says, or than the sample that it was given. -/
theorem fits_mutate {env : Surroundings} {maxSize maxFrom maxEnd b : ℕ} {t : ClassTree}
    (henv : env.Ok maxSize maxFrom) (ht : WellFormed t)
    (hparams : t.Follows fun c _ => c.ParametersOk) (hroom : room maxSize maxFrom maxEnd t ≤ b)
    (hb : b < 2 ^ 31) {s : FieldsTree} (hs : StateEnds maxEnd t s) {sample : Sample}
    (hsize : sample.size ≤ b) :
    Spec (mutate env t s sample) (FitsIn b maxEnd t) (· = .noDraws) := by
  induction t using Tree.induction generalizing s sample b with
  | h c ts ih =>
      obtain ⟨⟨harity, hclass⟩, hts⟩ := ht.node
      obtain ⟨hown, hparams'⟩ := Tree.follows_node.1 hparams
      obtain ⟨fields, us⟩ := s
      obtain ⟨hregions, hus⟩ := Tree.matches_node.1 hs
      have hall : ∀ b' ≤ b, (ts.map (room maxSize maxFrom maxEnd)).foldr max 0 ≤ b' →
          ∀ t ∈ ts, ∀ u sample, StateEnds maxEnd t u → sample.size ≤ b' →
          Spec (mutate env t u sample) (FitsIn b' maxEnd t) (· = .noDraws) :=
        fun b' hle hrooms t hmem u sample hu hsample =>
          ih t hmem (hts t hmem) (hparams' t hmem)
            ((le_foldr_max (List.mem_map_of_mem hmem)).trans hrooms) (by omega) hu hsample
      rw [room_node] at hroom
      rw [mutate_node]
      cases c with
      | leaf l =>
          exact (spec_leaf henv hroom hb hsize hown).bind fun r hr => Spec.pure ⟨hr, hs⟩
      | deterministicByteFlipMutator =>
          exact fits_deterministicByteFlipMutate hb hsize hregions hus hroom
      | deterministicInterestingValueMutator values =>
          exact fits_deterministicInterestingValueMutate hb hsize hregions hus hown hroom
      | nRoundMutator n =>
          exact fits_nRoundMutate hsize hregions hus (hall b le_rfl hroom) (eq_of_beq harity)
      | mutatorSequence r h =>
          rw [MutatorClass.mutate, sequenceMutate, ← List.map_drop]
          exact fits_sequenceLoop hsize hregions hus (hall b le_rfl hroom) rfl
      | selectMutator =>
          have hpos : 0 < (ts.map (mutate env)).length := by
            rw [List.length_map]
            exact of_decide_eq_true harity
          refine (spec_randMod hpos).bind fun i hi => ?_
          rw [List.length_map] at hi
          exact fits_runSelected hsize hregions hus (hall b le_rfl hroom) hi
      | pSelectMutator belowSum =>
          have hlength : belowSum.length = ts.length := hclass
          have hpos : 0 < ts.length := of_decide_eq_true harity
          refine spec_rand.bind fun r _ => ?_
          obtain ⟨i, hpick, hi⟩ := @pSelectLoop_lt r belowSum 0 (List.length_pos_iff.1 (by omega))
          rw [hpick]
          exact fits_runSelected hsize hregions hus (hall b le_rfl hroom) (by omega)
      | repeatMutator =>
          exact fits_repeatMutate hsize hregions hus (hall b le_rfl hroom) (eq_of_beq harity)
      | dtermininsticNondeterministicMutator m n =>
          exact fits_dtermininsticNondeterministicMutate hsize hregions hus (hall b le_rfl hroom)
            (eq_of_beq harity)
      | rangeMutator =>
          exact fits_rangeMutateChild henv hb hroom hsize hregions hus (eq_of_beq harity) hall

end Mutators
end Jackalope
