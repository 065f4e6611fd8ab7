/-
# Splicing two samples

`SpliceMutator::Mutate` (`mutator.cpp`, lines 310-393), with the blocks of memory that it
copies.  The points are drawn by `points` and by whether the mutation is displaced; whether
it is depends on the first draw, and the other sample on the second.

Two of the four ways have a shortcut that copies over the sample where it lies.  `crossover`,
`exchange` and `overlay` say what is wanted of the bytes, without a shortcut, and
`splice_eq` that this is what the source computes, for the points that it draws.
-/

import Jackalope.Mutators.Blocks

namespace Jackalope
namespace Mutators

open Foundation Foundation.Consumer Foundation.Buffer

/-! ### The source -/

/-- The points of a splice with one point. -/
def drawPoints (displace : Bool) (inoutSize otherSize : ℕ) : Draws (ℕ × ℕ) :=
  if displace then do
    let point1 ← randBetween 0 (toInt (minus inoutSize 1))
    let point2 ← randBetween 0 (toInt (minus otherSize 1))
    pure (toSize point1, toSize point2)
  else do
    let minsize := if otherSize < inoutSize then otherSize else inoutSize
    let point1 ← randBetween 0 (toInt (minus minsize 1))
    pure (toSize point1, toSize point1)

/-- `points == 1`, when the points have been drawn. -/
def spliceAtPoint (maxSize : ℕ) (inoutSample otherSample : Sample) (point1 point2 : ℕ) :
    Draws (Bool × Sample) := do
  let rest := minus otherSample.size point2
  let newSampleSize := wrap (point1 + rest)
  if newSampleSize = inoutSample.size then do
    let bytes ← access (memcpy (of inoutSample.bytes) point1 (of otherSample.bytes) point2 rest)
    let inoutSample ← setBytes bytes inoutSample.size
    pure (true, inoutSample)
  else do
    let newBytes := malloc newSampleSize
    let newBytes ← access (memcpy newBytes 0 (of inoutSample.bytes) 0 point1)
    let newBytes ← access (memcpy newBytes point1 (of otherSample.bytes) point2 rest)
    let inoutSample ← setBytes newBytes newSampleSize
    pure (true, if inoutSample.size > maxSize then inoutSample.trim maxSize else inoutSample)

/-- Two points, displaced, when the blocks have been drawn. -/
def spliceDisplaced (maxSize : ℕ) (inoutSample otherSample : Sample) (block1 block2 : ℕ × ℕ) :
    Draws (Bool × Sample) := do
  let blockstart3 := wrap (block1.1 + block1.2)
  let blocksize3 := minus inoutSample.size blockstart3
  let newSampleSize := wrap (wrap (block1.1 + block2.2) + blocksize3)
  let newBytes := malloc newSampleSize
  let newBytes ← access (memcpy newBytes 0 (of inoutSample.bytes) 0 block1.1)
  let newBytes ← access (memcpy newBytes block1.1 (of otherSample.bytes) block2.1 block2.2)
  let newBytes ← access
    (memcpy newBytes (block1.1 + block2.2) (of inoutSample.bytes) blockstart3 blocksize3)
  if newSampleSize > maxSize then do
    let inoutSample ← setBytes (realloc newBytes maxSize) maxSize
    pure (true, inoutSample)
  else do
    let inoutSample ← setBytes newBytes newSampleSize
    pure (true, inoutSample)

/-- Two points, not displaced, when the block has been drawn. -/
def spliceInPlace (inoutSample otherSample : Sample) (block : ℕ × ℕ) : Draws (Bool × Sample) := do
  -- a block that begins behind the sample is pulled back to its end
  let (blockstart, blocksize) :=
    if block.1 > inoutSample.size then
      (inoutSample.size, wrap (block.2 + minus block.1 inoutSample.size))
    else block
  if wrap (blockstart + blocksize) ≤ inoutSample.size then do
    let bytes ← access
      (memcpy (of inoutSample.bytes) blockstart (of otherSample.bytes) blockstart blocksize)
    let inoutSample ← setBytes bytes inoutSample.size
    pure (true, inoutSample)
  else do
    let newSampleSize := wrap (blockstart + blocksize)
    let newBytes := malloc newSampleSize
    let newBytes ← access (memcpy newBytes 0 (of inoutSample.bytes) 0 blockstart)
    let newBytes ← access (memcpy newBytes blockstart (of otherSample.bytes) blockstart blocksize)
    let inoutSample ← setBytes newBytes newSampleSize
    pure (true, inoutSample)

/-- `SpliceMutator::Mutate`, when it is known whether to displace, and the other sample has
been picked. -/
def splice (maxSize : ℕ) (points : ℤ) (displace : Bool) (inoutSample otherSample : Sample) :
    Draws (Bool × Sample) :=
  if inoutSample.size = 0 then pure (false, inoutSample)
  else if otherSample.size = 0 then pure (false, inoutSample)
  else if points = 1 then do
    let point ← drawPoints displace inoutSample.size otherSample.size
    spliceAtPoint maxSize inoutSample otherSample point.1 point.2
  else if points ≠ 2 then fail .fatal
  else if displace then do
    let block1 ← getRandBlock inoutSample.size 1 inoutSample.size
    match block1 with
    | none => pure (true, inoutSample)
    | some block1 => do
        let block2 ← getRandBlock otherSample.size 1 otherSample.size
        match block2 with
        | none => pure (true, inoutSample)
        | some block2 => spliceDisplaced maxSize inoutSample otherSample block1 block2
  else do
    let block ← getRandBlock otherSample.size 2 otherSample.size
    match block with
    | none => pure (true, inoutSample)
    | some block => spliceInPlace inoutSample otherSample block

/-- `all_samples[prng->Rand(0, (int)all_samples.size() - 1)]`. -/
def pickSample (allSamples : List Sample) : Draws Sample := do
  let i ← randBetween 0 (toInt allSamples.length - 1)
  access allSamples[toSize i]?

/-- `SpliceMutator::Mutate`; `displaced` is `RandReal() < displacement_p` for a draw. -/
def spliceMutate (maxSize : ℕ) (points : ℤ) (displaced : UInt32 → Bool) (allSamples : List Sample) :
    MutateSample := fun inoutSample =>
  if allSamples = [] then pure (true, inoutSample)
  else do
    let r ← rand
    let otherSample ← pickSample allSamples
    splice maxSize points (displaced r) inoutSample otherSample

/-! ### What is wanted -/

/-- The front of the one sample and the end of the other. -/
def crossover (inout other : Bytes) (point1 point2 : ℕ) : Bytes := inout.take point1 ++ other.drop point2

/-- A block of the one sample gives way to a block of the other. -/
def exchange (inout other : Bytes) (block1 block2 : ℕ × ℕ) : Bytes :=
  inout.take block1.1 ++ slice other block2.1 block2.2 ++ inout.drop (block1.1 + block1.2)

/-- The bytes of the other sample in `[blockstart, blockend)` lie over those of the one, which
reaches up to the block if it ends before it. -/
def overlay (inout other : Bytes) (blockstart blockend : ℕ) : Bytes :=
  let start := min blockstart inout.length
  inout.take start ++ slice other start (blockend - start) ++ inout.drop blockend

/-- What `SpliceMutator` is for, for one or two points. -/
def spliced (maxSize : ℕ) (points : ℤ) (displace : Bool) (inout other : Sample) : Draws (Bool × Sample) :=
  if points = 1 then do
    let point ← drawPoints displace inout.size other.size
    pure (true, Sample.init ((crossover inout.bytes other.bytes point.1 point.2).take maxSize))
  else if displace then do
    let block1 ← getRandBlock inout.size 1 inout.size
    let block2 ← getRandBlock other.size 1 other.size
    match block1, block2 with
    | some block1, some block2 =>
        pure (true, Sample.init ((exchange inout.bytes other.bytes block1 block2).take maxSize))
    | _, _ => pure (true, inout)
  else do
    let block ← getRandBlock other.size 2 other.size
    match block with
    | some block =>
        pure (true, Sample.init (overlay inout.bytes other.bytes block.1 (block.1 + block.2)))
    | none => pure (true, inout)

/-- How long the overlaid sample is, and where each of its bytes comes from: from the other
sample between the two ends of the block, and from this one elsewhere.  -/
theorem getElem?_overlay (inout other : Bytes) {blockstart blockend : ℕ} (hle : blockstart ≤ blockend)
    (hend : blockend ≤ other.length) :
    (overlay inout other blockstart blockend).length = max inout.length blockend ∧
      ∀ i, (overlay inout other blockstart blockend)[i]? =
        if min blockstart inout.length ≤ i ∧ i < blockend then other[i]? else inout[i]? := by
  rw [overlay]
  generalize hstart : min blockstart inout.length = start
  have hblock : (slice other start (blockend - start)).length = blockend - start :=
    length_slice (by omega)
  have hfront : (inout.take start).length = start := by
    rw [List.length_take]
    omega
  refine ⟨?_, fun i => ?_⟩
  · rw [List.length_append, List.length_append, hfront, hblock, List.length_drop]
    omega
  · rw [List.append_assoc]
    by_cases hbefore : i < start
    · rw [List.getElem?_append_left (by omega), List.getElem?_take_of_lt hbefore, if_neg (by omega)]
    rw [List.getElem?_append_right (by omega), hfront]
    by_cases hin : i < blockend
    · rw [List.getElem?_append_left (by omega), if_pos (by omega), slice,
        List.getElem?_take_of_lt (by omega), List.getElem?_drop]
      congr 1
      omega
    · rw [List.getElem?_append_right (by omega), hblock, List.getElem?_drop, if_neg (by omega)]
      congr 1
      omega

/-! ### The source computes it -/

/-- The points that are drawn lie in their samples, and are one point if nothing is
displaced: then it is drawn below the smaller of the sizes.  -/
theorem spec_drawPoints {displace : Bool} {inoutSize otherSize : ℕ} (hin : 0 < inoutSize)
    (hin' : inoutSize < 2 ^ 31) (hother : 0 < otherSize) (hother' : otherSize < 2 ^ 31) :
    Spec (drawPoints displace inoutSize otherSize)
      (fun point => point.1 < inoutSize ∧ point.2 < otherSize ∧ (displace = false → point.1 = point.2))
      (· = .noDraws) := by
  cases displace with
  | true =>
      show Spec (randBetween 0 (toInt (minus inoutSize 1)) >>= fun point1 =>
        randBetween 0 (toInt (minus otherSize 1)) >>= fun point2 =>
          pure (toSize point1, toSize point2)) _ _
      rw [minus_of_le hin (by omega), minus_of_le hother (by omega), toInt_of_lt (by omega),
        toInt_of_lt (by omega)]
      refine (spec_randBetween le_rfl (by omega) (by omega) (by omega)).bind fun point1 h₁ => ?_
      refine (spec_randBetween le_rfl (by omega) (by omega) (by omega)).bind fun point2 h₂ => ?_
      rw [toSize_of_nonneg (by omega) (by omega), toSize_of_nonneg (by omega) (by omega)]
      exact Spec.pure ⟨by dsimp only; omega, by dsimp only; omega, fun h => absurd h (by decide)⟩
  | false =>
      show Spec (randBetween 0 (toInt (minus (if otherSize < inoutSize then otherSize else inoutSize) 1)) >>=
        fun point1 => pure (toSize point1, toSize point1)) _ _
      have hmin : (if otherSize < inoutSize then otherSize else inoutSize) = min otherSize inoutSize := by
        split <;> omega
      rw [hmin, minus_of_le (by omega) (by omega), toInt_of_lt (by omega)]
      refine (spec_randBetween le_rfl (by omega) (by omega) (by omega)).bind fun point1 h₁ => ?_
      rw [toSize_of_nonneg (by omega) (by omega)]
      exact Spec.pure ⟨by dsimp only; omega, by dsimp only; omega, fun _ => rfl⟩

section Splice

variable {maxSize : ℕ} {inout other : Sample} (hmax : maxSize < 2 ^ 31) (hin : inout.size ≤ maxSize)
  (hother : other.size ≤ maxSize)

include hmax hin hother

/-- **One point**: in place, if the sizes agree, or into a new block that is cut.  Either
way the result is the first part of this sample and the second of the other.  -/
theorem spliceAtPoint_eq {point1 point2 : ℕ} (h₁ : point1 ≤ inout.size) (h₂ : point2 ≤ other.size) :
    spliceAtPoint maxSize inout other point1 point2 =
      pure (true, Sample.init ((crossover inout.bytes other.bytes point1 point2).take maxSize)) := by
  have hlen : inout.bytes.length = inout.size := rfl
  have hlen' : other.bytes.length = other.size := rfl
  have hcross : (crossover inout.bytes other.bytes point1 point2).length =
      point1 + (other.size - point2) := by
    rw [crossover, List.length_append, List.length_take, List.length_drop]
    omega
  have hend : slice other.bytes point2 (other.size - point2) = other.bytes.drop point2 :=
    slice_to_end (by omega)
  rw [spliceAtPoint]
  dsimp only
  rw [minus_of_le h₂ (by omega), wrap_of_lt (by omega)]
  split
  · rename_i hsame
    rw [memcpy_of (by omega) (by omega), access_some, pure_bind, hend, List.drop_of_length_le
      (by omega : inout.bytes.length ≤ point1 + (other.size - point2)), List.append_nil]
    show setBytes (of (crossover inout.bytes other.bytes point1 point2)) inout.size >>= _ = _
    rw [setBytes_of (by omega), pure_bind, List.take_of_length_le (by omega)]
  · rw [memcpy_malloc (by omega) (by omega), access_some, pure_bind, slice_zero,
      memcpy_written (by rw [List.length_take]; omega) (by omega) (by omega), access_some, pure_bind, hend]
    show setBytes (written (crossover inout.bytes other.bytes point1 point2) _) _ >>= _ = _
    rw [setBytes_written (by omega) hcross, pure_bind]
    have hinit := Sample.init_bytes
      (by omega : (crossover inout.bytes other.bytes point1 point2).length < 2 ^ 64)
    generalize crossover inout.bytes other.bytes point1 point2 = bytes at hcross hinit
    have hsize : (Sample.init bytes).size = bytes.length := by rw [Sample.size, hinit]
    congr 2
    split
    · rename_i hover
      rw [Sample.trim, if_neg (by omega), Sample.mk.injEq, hinit, Sample.init_bytes]
      rw [List.length_take]
      omega
    · rw [List.take_of_length_le (by omega)]

/-- **Two points, displaced**: three parts tile a new block, which is cut.  The first and
the last part are of this sample and the middle one is the block of the other.  -/
theorem spliceDisplaced_eq {block1 block2 : ℕ × ℕ} (h₁ : block1.1 + block1.2 ≤ inout.size)
    (h₂ : block2.1 + block2.2 ≤ other.size) :
    spliceDisplaced maxSize inout other block1 block2 =
      pure (true, Sample.init ((exchange inout.bytes other.bytes block1 block2).take maxSize)) := by
  have hlen : inout.bytes.length = inout.size := rfl
  have hlen' : other.bytes.length = other.size := rfl
  have hexchange : (exchange inout.bytes other.bytes block1 block2).length =
      block1.1 + block2.2 + (inout.size - (block1.1 + block1.2)) := by
    rw [exchange, List.length_append, List.length_append, List.length_take, List.length_drop,
      length_slice (by omega)]
    omega
  rw [spliceDisplaced]
  rw [wrap_of_lt (by omega : block1.1 + block1.2 < 2 ^ 64), minus_of_le h₁ (by omega),
    wrap_of_lt (by omega : block1.1 + block2.2 < 2 ^ 64), wrap_of_lt (by omega),
    memcpy_malloc (by omega) (by omega), access_some, pure_bind, slice_zero,
    memcpy_written (by rw [List.length_take]; omega) (by omega) (by omega),
    access_some, pure_bind, memcpy_written (by
      rw [List.length_append, List.length_take, length_slice (by omega)]
      omega) (by omega) (by omega), access_some, pure_bind,
    slice_to_end (by omega : inout.bytes.length ≤
      block1.1 + block1.2 + (inout.size - (block1.1 + block1.2))), written_full (by omega)]
  have hdef : inout.bytes.take block1.1 ++ slice other.bytes block2.1 block2.2 ++
      inout.bytes.drop (block1.1 + block1.2) = exchange inout.bytes other.bytes block1 block2 := rfl
  rw [hdef]
  generalize exchange inout.bytes other.bytes block1 block2 = bytes at hexchange
  by_cases hover : block1.1 + block2.2 + (inout.size - (block1.1 + block1.2)) > maxSize
  · rw [if_pos hover, realloc_of_ge (by omega), setBytes_of (by rw [List.length_take]; omega), pure_bind]
  · rw [if_neg hover, setBytes_of hexchange, pure_bind, List.take_of_length_le (by omega)]

omit hin in
/-- **Two points, not displaced**: in place, if the block ends inside the sample, or into a
new block of memory that ends where it ends. -/
theorem spliceInPlace_eq {block : ℕ × ℕ} (h : block.1 + block.2 ≤ other.size) :
    spliceInPlace inout other block =
      pure (true, Sample.init (overlay inout.bytes other.bytes block.1 (block.1 + block.2))) := by
  have hlen : inout.bytes.length = inout.size := rfl
  have hlen' : other.bytes.length = other.size := rfl
  have hoverlay := (getElem?_overlay inout.bytes other.bytes (Nat.le_add_right block.1 block.2) h).1
  have hpull : (if block.1 > inout.size then
      (inout.size, wrap (block.2 + minus block.1 inout.size)) else block) =
      (min block.1 inout.bytes.length, block.1 + block.2 - min block.1 inout.bytes.length) := by
    split
    · rw [minus_of_le (by omega) (by omega), wrap_of_lt (by omega), Prod.mk.injEq]
      omega
    · refine Prod.ext ?_ ?_
      · dsimp only
        omega
      · dsimp only
        omega
  rw [spliceInPlace, hpull]
  dsimp only
  generalize hstart : min block.1 inout.bytes.length = start
  have hblock : start + (block.1 + block.2 - start) = block.1 + block.2 := by omega
  have hdef : overlay inout.bytes other.bytes block.1 (block.1 + block.2) =
      inout.bytes.take start ++ slice other.bytes start (block.1 + block.2 - start) ++
        inout.bytes.drop (block.1 + block.2) := by
    rw [overlay, hstart]
  rw [hblock, wrap_of_lt (by omega)]
  split
  · rw [memcpy_of (by omega) (by omega), access_some, pure_bind, hblock, ← hdef,
      setBytes_of (by omega), pure_bind]
  · rw [memcpy_malloc (by omega) (by omega), access_some, pure_bind, slice_zero,
      memcpy_written (by rw [List.length_take]; omega) (by omega) (by omega), access_some, pure_bind,
      hdef, List.drop_of_length_le (by omega), List.append_nil, setBytes_written (by omega), pure_bind]
    rw [List.length_append, List.length_take, length_slice (by omega)]
    omega

/-- **The source computes what is wanted**, whatever it draws: its four variants, with their
copies in place and into new blocks, are the operations on byte strings that they stand for.
-/
theorem splice_eq {points : ℤ} (hpoints : points = 1 ∨ points = 2) (displace : Bool)
    (hpos : 0 < inout.size) (hpos' : 0 < other.size) :
    splice maxSize points displace inout other = spliced maxSize points displace inout other := by
  rw [splice, spliced, if_neg (by omega), if_neg (by omega)]
  by_cases hone : points = 1
  · rw [if_pos hone, if_pos hone]
    refine (spec_drawPoints hpos (by omega) hpos' (by omega)).bind_congr fun point hpoint => ?_
    exact spliceAtPoint_eq hmax hin hother hpoint.1.le hpoint.2.1.le
  have htwo : points = 2 := by omega
  rw [if_neg hone, if_neg hone, if_neg (not_not.2 htwo)]
  cases displace with
  | true =>
      rw [if_pos rfl, if_pos rfl]
      refine (spec_getRandBlock le_rfl (fun h => h) (by omega) (by omega)).bind_congr fun block1 h₁ => ?_
      rcases block1 with _ | block1
      · have hsmall : inout.size < 1 := h₁
        omega
      refine (spec_getRandBlock le_rfl (fun h => h) (by omega) (by omega)).bind_congr fun block2 h₂ => ?_
      rcases block2 with _ | block2
      · rfl
      · exact spliceDisplaced_eq hmax hin hother (BlockOf.inside h₁) (BlockOf.inside h₂)
  | false =>
      rw [if_neg Bool.false_ne_true, if_neg Bool.false_ne_true]
      refine (spec_getRandBlock (by decide) (fun h => h) (by omega) (by omega)).bind_congr fun block h => ?_
      rcases block with _ | block
      · rfl
      · exact spliceInPlace_eq hmax hother (BlockOf.inside h)

/-- No draw leads out of bounds, and what is wanted is never too long: all variants but the
overlay in place cut at `max_size`, and that one is no longer than a sample that was there.
-/
theorem spec_spliced {points : ℤ} (displace : Bool) (hpos : 0 < inout.size) (hpos' : 0 < other.size) :
    Spec (spliced maxSize points displace inout other)
      (fun result => result.1 = true ∧ result.2.size ≤ maxSize) (· = .noDraws) := by
  have hcut : ∀ bytes : Bytes, (Sample.init (bytes.take maxSize)).size ≤ maxSize := by
    intro bytes
    have := List.length_take_le maxSize bytes
    rw [Sample.size, Sample.init_bytes (by omega)]
    exact this
  rw [spliced]
  split
  · exact (spec_drawPoints hpos (by omega) hpos' (by omega)).bind fun point _ => Spec.pure ⟨rfl, hcut _⟩
  split
  · refine (spec_getRandBlock le_rfl (fun h => h) (by omega) (by omega)).bind fun block1 _ => ?_
    refine (spec_getRandBlock le_rfl (fun h => h) (by omega) (by omega)).bind fun block2 _ => ?_
    rcases block1 with _ | block1
    · exact Spec.pure ⟨rfl, hin⟩
    rcases block2 with _ | block2
    · exact Spec.pure ⟨rfl, hin⟩
    · exact Spec.pure ⟨rfl, hcut _⟩
  · refine (spec_getRandBlock (by decide) (fun h => h) (by omega) (by omega)).bind fun block h => ?_
    rcases block with _ | block
    · exact Spec.pure ⟨rfl, hin⟩
    have hinside : block.1 + block.2 ≤ other.size := BlockOf.inside h
    have hlen := (getElem?_overlay inout.bytes other.bytes (Nat.le_add_right block.1 block.2) hinside).1
    refine Spec.pure ⟨rfl, ?_⟩
    show (Sample.init _).bytes.length ≤ maxSize
    have hin' : inout.bytes.length ≤ maxSize := hin
    rw [Sample.init_bytes (by omega), hlen]
    omega

end Splice

/-- One of the samples is picked. -/
theorem spec_pickSample {allSamples : List Sample} (hne : allSamples ≠ [])
    (hlt : allSamples.length < 2 ^ 31) :
    Spec (pickSample allSamples) (· ∈ allSamples) (· = .noDraws) := by
  have hpos : 0 < allSamples.length := List.length_pos_iff.2 hne
  rw [pickSample, toInt_of_lt hlt]
  refine (spec_randBetween le_rfl (by omega) (by omega) (by omega)).bind fun i hi => ?_
  have hlt' : i.toNat < allSamples.length := by omega
  rw [toSize_of_nonneg (by omega) (by omega), List.getElem?_eq_getElem hlt', access_some]
  exact Spec.pure (List.getElem_mem hlt')

/-- **`SpliceMutator` builds exactly the intended splice.**  For a sample and another one that
are not empty and not too long it computes, shortcuts or not, what `spliced` says of the points
or the block that it draws; no draw takes it out of a block of memory, and the size stays within
bounds.  The bytes of an overlay are those of the other sample from where its block begins, or
from the end of the sample if that comes first, to where the block ends. -/
theorem spliceMutate_exact {maxSize : ℕ} (hmax : maxSize < 2 ^ 31) {points : ℤ}
    (hpoints : points = 1 ∨ points = 2) (inout : Sample) (hpos : 0 < inout.size)
    (hin : inout.size ≤ maxSize) :
    (∀ displace other, 0 < other.size → other.size ≤ maxSize →
      splice maxSize points displace inout other = spliced maxSize points displace inout other ∧
      Spec (splice maxSize points displace inout other)
        (fun result => result.1 = true ∧ result.2.size ≤ maxSize) (· = .noDraws) ∧
      Spec (drawPoints displace inout.size other.size)
        (fun point => point.1 < inout.size ∧ point.2 < other.size ∧
          (displace = false → point.1 = point.2)) (· = .noDraws) ∧
      ∀ blockstart blockend, blockstart ≤ blockend → blockend ≤ other.size →
        (overlay inout.bytes other.bytes blockstart blockend).length = max inout.size blockend ∧
        ∀ i, (overlay inout.bytes other.bytes blockstart blockend)[i]? =
          if min blockstart inout.size ≤ i ∧ i < blockend then other.bytes[i]? else inout.bytes[i]?) ∧
      ∀ (displaced : UInt32 → Bool) (allSamples : List Sample), allSamples ≠ [] →
        allSamples.length < 2 ^ 31 →
        (∀ other ∈ allSamples, 0 < other.size ∧ other.size ≤ maxSize) →
        spliceMutate maxSize points displaced allSamples inout = (do
          let r ← rand
          let other ← pickSample allSamples
          spliced maxSize points (displaced r) inout other) := by
  refine ⟨fun displace other hpos' hother => ⟨?_, ?_, ?_, fun blockstart blockend hle hend => ?_⟩,
    fun displaced allSamples hne hlt hall => ?_⟩
  · exact splice_eq hmax hin hother hpoints displace hpos hpos'
  · rw [splice_eq hmax hin hother hpoints displace hpos hpos']
    exact spec_spliced hmax hin hother displace hpos hpos'
  · exact spec_drawPoints hpos (by omega) hpos' (by omega)
  · have hlen : inout.size = inout.bytes.length := rfl
    rw [hlen]
    exact getElem?_overlay inout.bytes other.bytes hle hend
  · rw [spliceMutate, if_neg hne]
    have hpick := @spec_pickSample allSamples hne hlt
    refine spec_rand.bind_congr fun r _ => hpick.bind_congr fun other hother => ?_
    exact splice_eq hmax hin (hall other hother).2 hpoints (displaced r) hpos (hall other hother).1

/-- A block that begins behind a sample of two bytes is pulled back to its end, so the
result has no gap: both bytes of the sample are kept, and the block comes right behind them.
-/
theorem spliceMutate_exact_pulledBack :
    spliceMutate 16 2 below50 [Sample.init [5, 6, 7, 8, 9]] (Sample.init [1, 2]) = (do
      let r ← rand
      let other ← pickSample [Sample.init [5, 6, 7, 8, 9]]
      spliced 16 2 (below50 r) (Sample.init [1, 2]) other) :=
  (spliceMutate_exact (by decide : 16 < 2 ^ 31) (Or.inr rfl) (Sample.init [1, 2]) (by decide)
    (by decide)).2 below50 [Sample.init [5, 6, 7, 8, 9]] (by decide) (by decide) (by
      intro other hother
      obtain rfl := List.mem_singleton.1 hother
      decide)

/-- The block `[3, 5)` of five bytes, spliced into two. -/
example : spliceMutate 16 2 below50 [Sample.init [5, 6, 7, 8, 9]] (Sample.init [1, 2])
    [4294967295, 0, 3] = .ok ((true, Sample.init [1, 2, 7, 8, 9]), []) := by decide +kernel

end Mutators
end Jackalope
