/-
# Mutating one range of a sample

`RangeMutator::Mutate` (`mutator.cpp`, lines 512-542).  It crops a range out of the sample,
has its child mutate that part, and copies the part back to where the range begins.  The
child is any computation that makes a sample of a sample, so nothing depends on which
mutator of the repository it is.

The part is copied back as it is.  Where the child has made it longer than the range, it
lands on the bytes behind the range; where the range begins behind the end of the sample,
the sample is made longer even for a part that is empty, because it is not the part that is
tested for being empty.  `rangeMutate_keepsAround_iff` says when neither shows.
-/

import Jackalope.Prng
import Jackalope.Sample

namespace Jackalope
namespace Mutators

open Foundation Foundation.Consumer

/-- `Mutator::Mutate`, for the samples of a corpus: the answer and the sample. -/
abbrev MutateSample := Sample → Draws (Bool × Sample)

/-! ### `AppendMutator` -/

/-- The loop that fills the new bytes. -/
def randBytes (n : ℕ) : Draws Bytes :=
  times (do
    let c ← randBetween 0 255
    pure (UInt8.ofNat c.toNat)) n

/-- `AppendMutator::Mutate`. -/
def appendMutator (maxSize : ℕ) (minAppend maxAppend : ℤ) : MutateSample := fun inoutSample =>
  if inoutSample.size ≥ maxSize then pure (true, inoutSample)
  else do
    let append ← randBetween minAppend maxAppend
    let append := (append % 2 ^ 64).toNat
    let append :=
      if (inoutSample.size + append) % 2 ^ 64 > maxSize then maxSize - inoutSample.size else append
    if append = 0 then pure (true, inoutSample)
    else do
      let newBytes ← randBytes append
      pure (true, Sample.init (inoutSample.bytes ++ newBytes))

/-! ### `RangeMutator` -/

/-- Bytes with others copied over them. -/
def paste (bytes : Bytes) (pos : ℕ) (data : Bytes) : Bytes :=
  bytes.take pos ++ data ++ bytes.drop (pos + data.length)

/-- `memcpy(sample->bytes + pos, data, ...)`. -/
def copyInto (sample : Sample) (pos : ℕ) (data : Bytes) : Draws Sample :=
  if pos + data.length ≤ sample.size then pure (Sample.init (paste sample.bytes pos data))
  else fail .undefined

/-- `RangeMutator::Mutate` with a range that was picked, for a sample that is not empty. -/
def mutateRange (child : MutateSample) (range : Range) (inoutSample : Sample) :
    Draws (Bool × Sample) := do
  let (_, rangesample) ← child (inoutSample.crop range.rangeFrom range.rangeTo)
  let newSize := (range.rangeFrom + rangesample.size) % 2 ^ 64
  let resized := if newSize > inoutSample.size then inoutSample.resize newSize else inoutSample
  let pasted ← copyInto resized range.rangeFrom rangesample.bytes
  pure (true, pasted)

/-- `RangeMutator::Mutate`. -/
def rangeMutate (child : MutateSample) (ranges : List Range) : MutateSample := fun inoutSample =>
  if ranges = [] then child inoutSample
  else do
    let i ← randMod ranges.length
    match ranges[i]? with
    | none => fail .undefined -- not reached: a remainder is an index
    | some range =>
        -- the sample is tested here, and not the part that was cropped
        if inoutSample.size = 0 then child inoutSample
        else mutateRange child range inoutSample

/-! ### What is around the range -/

/-- Pasting within a block keeps its length.  -/
theorem length_paste {bytes data : Bytes} {pos : ℕ} (h : pos + data.length ≤ bytes.length) :
    (paste bytes pos data).length = bytes.length := by
  rw [paste, List.length_append, List.length_append, List.length_take, List.length_drop]
  omega

/-- Where the copied bytes are, and where the old ones: at the place of the part its own
bytes, and elsewhere what was there.  -/
theorem getElem?_paste {bytes data : Bytes} {pos : ℕ} (h : pos + data.length ≤ bytes.length) (i : ℕ) :
    (paste bytes pos data)[i]? =
      if pos ≤ i ∧ i < pos + data.length then data[i - pos]? else bytes[i]? := by
  have htake : (bytes.take pos).length = pos := List.length_take_of_le (by omega)
  rw [paste, List.append_assoc]
  by_cases hbefore : i < pos
  · rw [if_neg (by omega), List.getElem?_append_left (by omega), List.getElem?_take_of_lt hbefore]
  rw [List.getElem?_append_right (by omega), htake]
  by_cases hin : i < pos + data.length
  · rw [if_pos (by omega), List.getElem?_append_left (by omega)]
  · rw [if_neg (by omega), List.getElem?_append_right (by omega), List.getElem?_drop]
    congr 1
    omega

/-- A sample as long as a part at a position needs it to be. -/
def extend (sample : Sample) (newSize : ℕ) : Sample :=
  if newSize > sample.size then sample.resize newSize else sample

/-- A sample is extended to the size that is asked for, if it is not larger already.  -/
theorem size_extend (sample : Sample) {newSize : ℕ} (h : newSize < 2 ^ 64) :
    (extend sample newSize).size = max sample.size newSize := by
  rw [extend]
  split
  · rename_i hlt
    rw [Sample.size, Sample.bytes_resize hlt h, List.length_append, List.length_replicate]
    unfold Sample.size at hlt ⊢
    omega
  · omega

/-- What was there stays where it was. -/
theorem getElem?_extend {sample : Sample} {newSize i : ℕ} (h : newSize < 2 ^ 64)
    (hi : i < sample.size) : (extend sample newSize).bytes[i]? = sample.bytes[i]? := by
  rw [extend]
  split
  · rename_i hlt
    rw [Sample.bytes_resize hlt h, List.getElem?_append_left hi]
  · rfl

/-- **Only the range was changed**: the bytes before it and behind it are where they were,
and if the range begins at the end of the sample or behind it, nothing has changed. -/
structure KeepsAround (range : Range) (before after : Sample) : Prop where
  around : ∀ i < before.size, i < range.rangeFrom ∨ max range.rangeFrom range.rangeTo ≤ i →
    after.bytes[i]? = before.bytes[i]?
  beyond : before.size ≤ range.rangeFrom → after = before

/-- The part fits where it is copied to: it changes no byte behind the range, and it does not
reach beyond the end of the sample if the range begins there or behind. -/
structure PartFits (range : Range) (sample part : Sample) : Prop where
  noWrap : range.rangeFrom + part.size < 2 ^ 64
  behind : ∀ i < sample.size, max range.rangeFrom range.rangeTo ≤ i → i < range.rangeFrom + part.size →
    part.bytes[i - range.rangeFrom]? = sample.bytes[i]?
  beyond : sample.size ≤ range.rangeFrom → range.rangeFrom + part.size ≤ sample.size

/-- What is cropped is no longer than the range, and ends where the sample ends. -/
theorem size_crop_le (sample : Sample) (range : Range) :
    (sample.crop range.rangeFrom range.rangeTo).size ≤
      min range.rangeTo sample.size - range.rangeFrom := by
  rw [Sample.crop]
  split
  · exact Nat.zero_le _
  · split
    · exact Nat.zero_le _
    · dsimp only
      rw [Sample.size, Sample.init, List.length_take, List.length_take, List.length_drop]
      unfold Sample.size
      split <;> omega

/-- A part that has not grown fits, if its range does not begin behind the end. -/
theorem partFits_of_size_le {range : Range} {sample part : Sample}
    (hfrom : range.rangeFrom ≤ sample.size)
    (hsize : part.size ≤ (sample.crop range.rangeFrom range.rangeTo).size) :
    PartFits range sample part := by
  have hcrop := size_crop_le sample range
  have hlt : sample.size < 2 ^ 64 := sample.size_lt
  exact ⟨by omega, fun i _ hle hi => by omega, fun hbeyond => by omega⟩

/-- What the copy leaves, once the part has come back from the child: the sample is enlarged
if the part has grown over its end, and the part is pasted at the beginning of the range,
over whatever is there.  -/
theorem mutateRange_run {child : MutateSample} {range : Range} {sample part : Sample} {ret : Bool}
    {draws draws' : List UInt32}
    (hchild : child (sample.crop range.rangeFrom range.rangeTo) draws = .ok ((ret, part), draws')) :
    mutateRange child range sample draws =
      if range.rangeFrom + part.size < 2 ^ 64 then
        .ok ((true, Sample.init (paste (extend sample (range.rangeFrom + part.size)).bytes
          range.rangeFrom part.bytes)), draws')
      else .error .undefined := by
  rw [mutateRange, bind_ok hchild]
  have hmod : (range.rangeFrom + part.size) % 2 ^ 64 < 2 ^ 64 := Nat.mod_lt _ (Nat.two_pow_pos 64)
  have hsize := size_extend sample hmod
  have hlt : sample.size < 2 ^ 64 := sample.size_lt
  show (copyInto (extend sample ((range.rangeFrom + part.size) % 2 ^ 64)) range.rangeFrom part.bytes
    >>= fun pasted => pure (true, pasted)) draws' = _
  rw [copyInto, hsize]
  by_cases hwrap : range.rangeFrom + part.size < 2 ^ 64
  · have hfits : range.rangeFrom + part.bytes.length ≤ max sample.size (range.rangeFrom + part.size) :=
      le_max_right _ _
    rw [if_pos hwrap, Nat.mod_eq_of_lt hwrap, if_pos hfits]
    rfl
  · rw [if_neg hwrap, if_neg]
    · rfl
    · unfold Sample.size at hwrap
      omega

/-- A non-empty sample is mutated in the range that the first draw picks; the draws behind
it are those of the child.  -/
theorem rangeMutate_cons {child : MutateSample} {ranges : List Range} {range : Range} {sample : Sample}
    {r : UInt32} (hsample : sample.size ≠ 0) (hrange : ranges[r.toNat % ranges.length]? = some range)
    (draws : List UInt32) :
    rangeMutate child ranges sample (r :: draws) = mutateRange child range sample draws := by
  have hranges : ranges ≠ [] := by
    intro hnil
    rw [hnil] at hrange
    cases hrange
  have hpick : randMod ranges.length (r :: draws) = .ok (r.toNat % ranges.length, draws) := by
    rw [randMod, if_neg (fun h => hranges (List.length_eq_zero_iff.1 h))]
    rfl
  rw [rangeMutate, if_neg hranges, bind_ok hpick, hrange]
  dsimp only
  rw [if_neg hsample]

/-- The copied part, read back around the range: the bytes outside are those of the sample
exactly if the part has not grown, or has grown over the sample's end only.  -/
theorem keepsAround_paste_iff {range : Range} {sample part : Sample}
    (hwrap : range.rangeFrom + part.size < 2 ^ 64) :
    KeepsAround range sample (Sample.init (paste (extend sample (range.rangeFrom + part.size)).bytes
      range.rangeFrom part.bytes)) ↔ PartFits range sample part := by
  have hsize := size_extend sample hwrap
  have hlt : sample.size < 2 ^ 64 := sample.size_lt
  have hfits : range.rangeFrom + part.bytes.length ≤
      (extend sample (range.rangeFrom + part.size)).bytes.length :=
    (le_max_right sample.size _).trans_eq hsize.symm
  have hlength := length_paste hfits
  have hbytes : (Sample.init (paste (extend sample (range.rangeFrom + part.size)).bytes
      range.rangeFrom part.bytes)).bytes =
      paste (extend sample (range.rangeFrom + part.size)).bytes range.rangeFrom part.bytes :=
    Sample.init_bytes (hlength.trans_lt (hsize.trans_lt (max_lt hlt hwrap)))
  constructor
  · intro hkeeps
    refine ⟨hwrap, fun i hi hle hpart => ?_, fun hbeyond => ?_⟩
    · have hsame := hkeeps.around i hi (Or.inr hle)
      rw [hbytes, getElem?_paste hfits,
        if_pos ⟨(le_max_left _ _).trans hle, hpart⟩] at hsame
      exact hsame
    · -- the sample has not become longer, so the part did not reach beyond its end
      have hsame : _ = sample.bytes := hbytes.symm.trans (congrArg Sample.bytes (hkeeps.beyond hbeyond))
      rw [hsame] at hlength
      have hmax : max sample.size (range.rangeFrom + part.size) = sample.size :=
        hsize.symm.trans hlength.symm
      exact max_eq_left_iff.1 hmax
  · intro hpart
    refine ⟨fun i hi hout => ?_, fun hbeyond => ?_⟩
    · rw [hbytes, getElem?_paste hfits]
      split
      · rename_i hin
        rcases hout with hbefore | hbehind
        · omega
        · exact hpart.behind i hi hbehind hin.2
      · exact getElem?_extend hwrap hi
    · have hend := hpart.beyond hbeyond
      have hnil : part.bytes = [] := by
        rw [← List.length_eq_zero_iff]
        unfold Sample.size at hend hbeyond
        omega
      rw [extend, if_neg (by omega), hnil, paste, List.append_nil, List.length_nil, Nat.add_zero,
        List.take_append_drop, Sample.init_self]

/-- A child that has not made the part longer has changed nothing around the range. -/
theorem mutateRange_keepsAround {child : MutateSample} {range : Range} {sample part : Sample} {ret : Bool}
    {draws draws' : List UInt32} (hfrom : range.rangeFrom ≤ sample.size)
    (hchild : child (sample.crop range.rangeFrom range.rangeTo) draws = .ok ((ret, part), draws'))
    (hsize : part.size ≤ (sample.crop range.rangeFrom range.rangeTo).size) :
    ∃ after, mutateRange child range sample draws = .ok ((true, after), draws') ∧
      KeepsAround range sample after := by
  have hpart := partFits_of_size_le hfrom hsize
  rw [mutateRange_run hchild, if_pos hpart.noWrap]
  exact ⟨_, rfl, (keepsAround_paste_iff hpart.noWrap).2 hpart⟩

/-- **Only the chosen range is mutated exactly when the part fits**: whatever the ranges, the
draws and the child, the bytes around the range that was picked stay where they were if and
only if the part that came back from the child agrees with the bytes behind the range that it
is copied over, and does not reach beyond the end from a range that lies there. -/
theorem rangeMutate_keepsAround_iff (child : MutateSample) (ranges : List Range) (range : Range)
    (sample part : Sample) (ret : Bool) (r : UInt32) (draws draws' : List UInt32)
    (hsample : sample.size ≠ 0) (hrange : ranges[r.toNat % ranges.length]? = some range)
    (hchild : child (sample.crop range.rangeFrom range.rangeTo) draws = .ok ((ret, part), draws')) :
    (∃ after, rangeMutate child ranges sample (r :: draws) = .ok ((true, after), draws') ∧
      KeepsAround range sample after) ↔ PartFits range sample part := by
  rw [rangeMutate_cons hsample hrange, mutateRange_run hchild]
  by_cases hwrap : range.rangeFrom + part.size < 2 ^ 64
  · rw [if_pos hwrap, ← keepsAround_paste_iff hwrap]
    constructor
    · rintro ⟨after, hafter, hkeeps⟩
      cases hafter
      exact hkeeps
    · intro hkeeps
      exact ⟨_, rfl, hkeeps⟩
  · rw [if_neg hwrap]
    constructor
    · rintro ⟨after, hafter, -⟩
      cases hafter
    · intro hpart
      exact absurd hpart.noWrap hwrap

/-- A part at the end of the sample may grow: behind it there is nothing that could be
overwritten, and the sample is enlarged.  -/
theorem rangeMutate_keepsAround_atEnd :
    ∃ after, rangeMutate (appendMutator 1000000 1 128) [⟨3, 4⟩] (Sample.init [1, 2, 3, 4]) [0, 0, 9] =
      .ok ((true, after), []) ∧ KeepsAround ⟨3, 4⟩ (Sample.init [1, 2, 3, 4]) after :=
  (rangeMutate_keepsAround_iff (appendMutator 1000000 1 128) [⟨3, 4⟩] ⟨3, 4⟩ (Sample.init [1, 2, 3, 4])
    (Sample.init [4, 9]) true 0 [0, 9] [] (by decide) rfl (by decide +kernel)).2
    ⟨by decide, fun i hi hle hpart => by
      have : i < 4 := hi
      have : max 3 4 ≤ i := hle
      omega, fun h => absurd h (by decide)⟩

/-- **The byte behind the range is lost.** The range is `[0, 1)`, and the child appends one
byte to the part that was cropped.  The part is copied back from the beginning of the range
on, and its second byte takes the place of the byte behind.  -/
theorem rangeMutate_overwritesBehind :
    rangeMutate (appendMutator 1000000 1 128) [⟨0, 1⟩] (Sample.init [1, 2, 3, 4]) [0, 0, 9] =
      .ok ((true, Sample.init [1, 9, 3, 4]), []) ∧
    ¬ KeepsAround ⟨0, 1⟩ (Sample.init [1, 2, 3, 4]) (Sample.init [1, 9, 3, 4]) := by
  refine ⟨by decide +kernel, fun h => ?_⟩
  exact absurd (h.around 1 (by decide) (Or.inr (by decide))) (by decide)

end Mutators
end Jackalope
