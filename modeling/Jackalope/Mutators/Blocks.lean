/-
# Mutators that insert a block

`AppendMutator`, `BlockInsertMutator` and `BlockDuplicateMutator` (`mutator.cpp`, lines 34-41
and 107-179), with the blocks of memory that they allocate and copy.  A `size_t` is a number
below `2^64` and an `int` one of `-2^31` up to `2^31 - 1`; every sum and product is wrapped as
the source wraps it.  `undefined` is a byte read or written outside its block, a byte of the
new sample that was never written, or a division by zero.

What the three make of a sample is `inserted`, a sample with bytes put in at a position.
Each is first brought into a form without blocks and without wrapping, for the draws that it
makes (`appendMutate_eq`, `blockInsertMutate_eq`, `blockDuplicateMutate_eq`); what it inserts
can be read off from there.
-/

import Jackalope.Foundation.Buffer
import Jackalope.Mutators.Ranges

namespace Jackalope
namespace Mutators

open Foundation Foundation.Consumer Foundation.Buffer

/-! ### Numbers and blocks -/

/-- A number as a `size_t`. -/
def wrap (n : ℕ) : ℕ := n % 2 ^ 64

/-- A difference of two `size_t`s. -/
def minus (m n : ℕ) : ℕ := wrap (m + 2 ^ 64 - n)

/-- An `int` as a `size_t`. -/
def toSize (z : ℤ) : ℕ := (z % 2 ^ 64).toNat

/-- A `size_t` as an `int`. -/
def toInt (n : ℕ) : ℤ := Int.bmod n (2 ^ 32)

/-- An access to a block. -/
def access {α : Type} : Option α → Draws α
  | some a => pure a
  | none => fail .undefined

/-- The sample gets a block and a size; every byte of the block was written, and there are as
many as the size says. -/
def setBytes (bytes : Buffer UInt8) (size : ℕ) : Draws Sample := do
  let content ← access (contents bytes)
  if content.length = size then pure (Sample.init content) else fail .undefined

/-- `for (...) bytes[i] = (char)prng->Rand(0, 255)`: `n` more rounds from `i` on. -/
def storeRandom : ℕ → ℕ → Buffer UInt8 → Draws (Buffer UInt8)
  | 0, _, bytes => pure bytes
  | n + 1, i, bytes => do
      let c ← randBetween 0 255
      let bytes ← access (store bytes i (UInt8.ofNat c.toNat))
      storeRandom n (i + 1) bytes

/-- `Mutator::GetRandBlock`: `blockstart` and `blocksize`, unless it returns 0. -/
def getRandBlock (samplesize minblocksize maxblocksize : ℕ) : Draws (Option (ℕ × ℕ)) :=
  if samplesize = 0 then pure none
  else if samplesize < minblocksize then pure none
  else do
    let maxblocksize := if samplesize < maxblocksize then samplesize else maxblocksize
    let blocksize ← randBetween (toInt minblocksize) (toInt maxblocksize)
    let blocksize := toSize blocksize
    let blockstart ← randBetween 0 (toInt (minus samplesize blocksize))
    pure (some (toSize blockstart, blocksize))

/-! ### The mutators -/

/-- `AppendMutator::Mutate`. -/
def appendMutate (maxSize : ℕ) (minAppend maxAppend : ℤ) : MutateSample := fun inoutSample =>
  let oldSize := inoutSample.size
  if oldSize ≥ maxSize then pure (true, inoutSample)
  else do
    let append ← randBetween minAppend maxAppend
    let append := toSize append
    let append := if wrap (oldSize + append) > maxSize then maxSize - oldSize else append
    if append = 0 then pure (true, inoutSample)
    else do
      let newSize := wrap (oldSize + append)
      let newBytes := realloc (of inoutSample.bytes) newSize
      let newBytes ← storeRandom (newSize - oldSize) oldSize newBytes
      let inoutSample ← setBytes newBytes newSize
      pure (true, inoutSample)

/-- `BlockInsertMutator::Mutate`. -/
def blockInsertMutate (maxSize : ℕ) (minInsert maxInsert : ℤ) : MutateSample := fun inoutSample =>
  let oldSize := inoutSample.size
  if oldSize ≥ maxSize then pure (true, inoutSample)
  else do
    let toInsert ← randBetween minInsert maxInsert
    let toInsert := toSize toInsert
    let toInsert := if wrap (oldSize + toInsert) > maxSize then maxSize - oldSize else toInsert
    let position ← randBetween 0 (toInt oldSize)
    let position := toSize position
    let newSize := wrap (oldSize + toInsert)
    if toInsert = 0 then pure (true, inoutSample)
    else do
      let oldBytes := of inoutSample.bytes
      let newBytes := malloc newSize
      let newBytes ← access (memcpy newBytes 0 oldBytes 0 position)
      let newBytes ← storeRandom toInsert position newBytes
      let newBytes ← access
        (memcpy newBytes (position + toInsert) oldBytes position (minus oldSize position))
      let inoutSample ← setBytes newBytes newSize
      pure (true, inoutSample)

/-- How often `BlockDuplicateMutator` duplicates a block: the number that was drawn, or what
fits under the maximal size; an `int64_t`. -/
def blockCount (maxSize size blocksize : ℕ) (blockcount : ℤ) : Draws ℤ :=
  if wrap (size + wrap (toSize blockcount * blocksize)) > maxSize then
    if blocksize = 0 then fail .undefined
    else pure (Int.bmod (minus maxSize size / blocksize : ℕ) (2 ^ 64))
  else pure blockcount

/-- The loop that copies the block; `n` more rounds. -/
def duplicateLoop (bytes : Buffer UInt8) (blockpos blocksize : ℕ) :
    ℕ → ℕ → Buffer UInt8 → Option (Buffer UInt8)
  | 0, _, newbytes => some newbytes
  | n + 1, i, newbytes => do
      let newbytes ← memcpy newbytes (blockpos + wrap ((i + 1) * blocksize)) bytes blockpos blocksize
      duplicateLoop bytes blockpos blocksize n (i + 1) newbytes

/-- `BlockDuplicateMutator::Mutate`. -/
def blockDuplicateMutate (maxSize : ℕ) (minBlockSize maxBlockSize minDuplicateCnt maxDuplicateCnt : ℤ) :
    MutateSample := fun inoutSample =>
  if inoutSample.size ≥ maxSize then pure (true, inoutSample)
  else do
    let block ← getRandBlock inoutSample.size (toSize minBlockSize) (toSize maxBlockSize)
    match block with
    | none => pure (true, inoutSample)
    | some (blockpos, blocksize) => do
        let blockcount ← randBetween minDuplicateCnt maxDuplicateCnt
        let blockcount ← blockCount maxSize inoutSample.size blocksize blockcount
        if blockcount ≤ 0 then pure (true, inoutSample)
        else do
          let newSize := wrap (inoutSample.size + wrap (toSize blockcount * blocksize))
          let bytes := of inoutSample.bytes
          let newbytes := malloc newSize
          let newbytes ← access (memcpy newbytes 0 bytes 0 (wrap (blockpos + blocksize)))
          let newbytes ← access
            (duplicateLoop bytes blockpos blocksize blockcount.toNat 0 newbytes)
          let newbytes ← access
            (memcpy newbytes (blockpos + wrap (toSize (blockcount + 1) * blocksize)) bytes
              (blockpos + blocksize) (minus (minus inoutSample.size blockpos) blocksize))
          let inoutSample ← setBytes newbytes newSize
          pure (true, inoutSample)

/-! ### Small numbers -/

section Numbers

variable {m n : ℕ} {z : ℤ}

/-- A number that fits in `size_t` is not changed by it.  -/
theorem wrap_of_lt (h : n < 2 ^ 64) : wrap n = n := Nat.mod_eq_of_lt h

/-- A difference that is not negative is the difference.  -/
theorem minus_of_le (hle : n ≤ m) (h : m < 2 ^ 64) : minus m n = m - n := by
  rw [minus, wrap]
  omega

/-- An `int` that is not negative keeps its value as a `size_t`. -/
theorem toSize_of_nonneg (h0 : 0 ≤ z) (h : z < 2 ^ 64) : toSize z = z.toNat := by
  rw [toSize, Int.emod_eq_of_lt h0 h]

/-- A small `size_t` keeps its value as an `int`. -/
theorem toInt_of_lt (h : n < 2 ^ 31) : toInt n = n :=
  Int.bmod_eq_of_le (by omega) (by omega)

end Numbers

/-- An access within the block gives what is there.  -/
@[simp] theorem access_some {α : Type} (a : α) : access (some a) = pure a := rfl

/-- A block that was written all over is a sample. -/
theorem setBytes_of {xs : Bytes} {size : ℕ} (h : xs.length = size) :
    setBytes (of xs) size = pure (Sample.init xs) := by
  rw [setBytes, contents_of, access_some, pure_bind, if_pos h]

/-- A block that is written to its end is a sample with what was written.  -/
theorem setBytes_written {xs : Bytes} {room size : ℕ} (hroom : room = 0) (h : xs.length = size) :
    setBytes (written xs room) size = pure (Sample.init xs) := by
  rw [written_full hroom, setBytes_of h]

/-! ### What is drawn -/

/-- As many draws as were asked for.  -/
theorem spec_times {α : Type} {c : Draws α} {Q : α → Prop} {E : Stop → Prop} (h : Spec c Q E) (n : ℕ) :
    Spec (times c n) (fun xs => xs.length = n) E := by
  induction n with
  | zero => exact Spec.pure rfl
  | succ n ih =>
      refine h.bind fun x _ => ih.bind fun xs hxs => Spec.pure ?_
      rw [List.length_cons, hxs]

/-- A byte is drawn between its bounds.  -/
theorem spec_randByte : Spec (randBetween 0 255) (fun c => 0 ≤ c ∧ c ≤ 255) (· = .noDraws) :=
  spec_randBetween (by decide) (by decide) (by decide) (by decide)

/-- As many bytes as were asked for.  -/
theorem spec_randBytes (n : ℕ) : Spec (randBytes n) (fun ins => ins.length = n) (· = .noDraws) :=
  spec_times (spec_randByte.bind (R := fun _ => True) fun _ _ => Spec.pure trivial) n

/-- Random bytes are written behind those that are there, one draw for each, and the room
that the block has is less by as many.  -/
theorem storeRandom_written {xs : Bytes} {n pos room : ℕ} (hpos : pos = xs.length) (h : n ≤ room) :
    storeRandom n pos (written xs room) =
      randBytes n >>= fun ins => pure (written (xs ++ ins) (room - n)) := by
  induction n generalizing xs pos room with
  | zero =>
      show pure (written xs room) = (pure [] >>= fun ins => pure (written (xs ++ ins) (room - 0)))
      rw [pure_bind, List.append_nil, Nat.sub_zero]
  | succ n ih =>
      rw [storeRandom, randBytes, times, bind_assoc, bind_assoc]
      congr 1
      funext c
      rw [store_written hpos (by omega), access_some, pure_bind, pure_bind, bind_assoc,
        ih (by rw [List.length_append, hpos, List.length_singleton]) (by omega)]
      show _ = (randBytes n >>= _)
      congr 1
      funext ins
      rw [pure_bind, List.append_assoc, List.singleton_append, Nat.sub_sub, Nat.add_comm 1]

/-- A block that can be drawn: of a size in the bounds, and inside the sample. -/
structure BlockOf (samplesize minblocksize maxblocksize : ℕ) (block : ℕ × ℕ) : Prop where
  min_le : minblocksize ≤ block.2
  le_max : block.2 ≤ maxblocksize
  inside : block.1 + block.2 ≤ samplesize

/-- **`GetRandBlock`** draws a block of the sample, and none only if the sample is too
small.  The sizes are such that `Rand(int, int)` gets them as positive numbers.  -/
theorem spec_getRandBlock {samplesize minblocksize maxblocksize : ℕ} (hmin : 1 ≤ minblocksize)
    (hle : minblocksize ≤ samplesize → minblocksize ≤ maxblocksize) (hmax : maxblocksize < 2 ^ 31)
    (hsize : samplesize < 2 ^ 31) :
    Spec (getRandBlock samplesize minblocksize maxblocksize)
      (fun block => match block with
        | none => samplesize < minblocksize
        | some block => BlockOf samplesize minblocksize maxblocksize block)
      (· = .noDraws) := by
  rw [getRandBlock]
  split
  · exact Spec.pure (by omega)
  split
  · rename_i hsmall
    exact Spec.pure hsmall
  rename_i hlarge
  have hle := hle (Nat.not_lt.1 hlarge)
  set maxsize := if samplesize < maxblocksize then samplesize else maxblocksize with hmaxsize
  have hbounds : minblocksize ≤ maxsize ∧ maxsize ≤ samplesize ∧ maxsize ≤ maxblocksize := by
    rw [hmaxsize]
    split <;> omega
  dsimp only
  rw [toInt_of_lt (by omega : minblocksize < 2 ^ 31), toInt_of_lt (by omega : maxsize < 2 ^ 31)]
  refine (spec_randBetween (by omega) (by omega) (by omega) (by omega)).bind fun blocksize hb => ?_
  rw [toSize_of_nonneg (by omega) (by omega), minus_of_le (by omega) (by omega), toInt_of_lt (by omega)]
  refine (spec_randBetween (by omega) (by omega) (by omega) (by omega)).bind fun blockstart hs => ?_
  rw [toSize_of_nonneg (by omega) (by omega)]
  refine Spec.pure ⟨?_, ?_, ?_⟩
  · dsimp only
    omega
  · dsimp only
    omega
  · dsimp only
    omega

/-! ### What is inserted -/

/-- The sample with bytes put in at a position. -/
def inserted (sample : Sample) (position : ℕ) (ins : Bytes) : Sample :=
  Sample.init (sample.bytes.take position ++ ins ++ sample.bytes.drop position)

/-- What `BlockInsertMutator` is for. -/
def blockInsertion (maxSize : ℕ) (minInsert maxInsert : ℤ) : MutateSample := fun sample =>
  if sample.size ≥ maxSize then pure (true, sample)
  else do
    let toInsert ← randBetween minInsert maxInsert
    let position ← randBetween 0 sample.size
    let ins ← randBytes (min toInsert.toNat (maxSize - sample.size))
    pure (true, inserted sample position.toNat ins)

/-- What `BlockDuplicateMutator` is for. -/
def blockDuplication (maxSize : ℕ) (minBlockSize maxBlockSize minDuplicateCnt maxDuplicateCnt : ℤ) :
    MutateSample := fun sample =>
  if sample.size ≥ maxSize then pure (true, sample)
  else do
    let block ← getRandBlock sample.size minBlockSize.toNat maxBlockSize.toNat
    match block with
    | none => pure (true, sample)
    | some (blockpos, blocksize) => do
        let blockcount ← randBetween minDuplicateCnt maxDuplicateCnt
        let copies := min blockcount.toNat ((maxSize - sample.size) / blocksize)
        pure (true, inserted sample (blockpos + blocksize)
          (List.replicate copies (slice sample.bytes blockpos blocksize)).flatten)

/-- The bounds of a mutator: positive, in order, and each an `int`. -/
structure Bounds (min max : ℤ) : Prop where
  one_le : 1 ≤ min
  le : min ≤ max
  lt : max < 2 ^ 31

/-- **A number is drawn between the bounds**, both included, if these are in order and their
distance is one that `Rand(min, max)` can deal with.  -/
theorem Bounds.spec {min max : ℤ} (h : Bounds min max) :
    Spec (randBetween min max) (fun v => min ≤ v ∧ v ≤ max) (· = .noDraws) := by
  have := h.one_le
  have := h.lt
  exact spec_randBetween (by omega) h.le (by omega) h.lt

/-- A number that was drawn, as a `size_t`. -/
theorem Bounds.toSize_eq {min max v : ℤ} (h : Bounds min max) (hv : min ≤ v ∧ v ≤ max) :
    toSize v = v.toNat ∧ 1 ≤ v.toNat ∧ v.toNat < 2 ^ 31 := by
  have := h.one_le
  have := h.lt
  exact ⟨toSize_of_nonneg (by omega) (by omega), by omega, by omega⟩

/-- How many bytes are added: as many as were drawn, or as fit. -/
theorem wrap_capped {size n maxSize : ℕ} (hsize : size < maxSize) (hmax : maxSize < 2 ^ 31)
    (hn : n < 2 ^ 31) :
    (if wrap (size + n) > maxSize then maxSize - size else n) = min n (maxSize - size) := by
  rw [wrap_of_lt (by omega)]
  split <;> omega

/-- How long the copies of a block are. -/
theorem length_copies {xs : Bytes} {blockpos blocksize : ℕ} (h : blockpos + blocksize ≤ xs.length)
    (n : ℕ) : (List.replicate n (slice xs blockpos blocksize)).flatten.length = n * blocksize := by
  rw [List.length_flatten, List.map_replicate, List.sum_replicate_nat, length_slice h]

/-- No more copies than fit. -/
theorem copies_fit (n room blocksize : ℕ) : min n (room / blocksize) * blocksize ≤ room :=
  (Nat.mul_le_mul_right _ (Nat.min_le_right _ _)).trans (Nat.div_mul_le_self _ _)

section Insertion

variable {maxSize : ℕ} (hmax : maxSize < 2 ^ 31) (sample : Sample)

include hmax

/-- `AppendMutator` on blocks of memory does what it does on samples: `realloc` keeps the
bytes, and the random ones are written behind them, within the new size.  -/
theorem appendMutate_eq {minAppend maxAppend : ℤ} (hbounds : Bounds minAppend maxAppend) :
    appendMutate maxSize minAppend maxAppend sample = appendMutator maxSize minAppend maxAppend sample := by
  rw [appendMutate, appendMutator]
  by_cases hfull : sample.size ≥ maxSize
  · rw [if_pos hfull, if_pos hfull]
  rw [if_neg hfull, if_neg hfull]
  refine hbounds.spec.bind_congr fun append hv => ?_
  obtain ⟨hto, hpos, hlt⟩ := hbounds.toSize_eq hv
  have hcap := wrap_capped (by omega : sample.size < maxSize) hmax hlt
  have hto' : (append % 2 ^ 64).toNat = append.toNat := hto
  have hcap' : (if (sample.size + append.toNat) % 2 ^ 64 > maxSize then maxSize - sample.size
      else append.toNat) = min append.toNat (maxSize - sample.size) := hcap
  dsimp only
  rw [hto, hcap, hto', hcap']
  set n := min append.toNat (maxSize - sample.size) with hn
  have hlen : sample.bytes.length = sample.size := rfl
  rw [if_neg (by omega), if_neg (by omega), wrap_of_lt (by omega), Nat.add_sub_cancel_left,
    realloc_of_le (by omega), storeRandom_written hlen.symm (by omega), bind_assoc]
  refine (spec_randBytes n).bind_congr fun ins hins => ?_
  rw [pure_bind, setBytes_written (by omega) (by rw [List.length_append, hins, hlen]), pure_bind]

/-- `BlockInsertMutator` puts random bytes in at a random position: the two `memcpy` and the
loop between them fill the new block without a gap.  -/
theorem blockInsertMutate_eq {minInsert maxInsert : ℤ} (hbounds : Bounds minInsert maxInsert) :
    blockInsertMutate maxSize minInsert maxInsert sample =
      blockInsertion maxSize minInsert maxInsert sample := by
  rw [blockInsertMutate, blockInsertion]
  by_cases hfull : sample.size ≥ maxSize
  · rw [if_pos hfull, if_pos hfull]
  rw [if_neg hfull, if_neg hfull]
  refine hbounds.spec.bind_congr fun toInsert hv => ?_
  obtain ⟨hto, hpos, hlt⟩ := hbounds.toSize_eq hv
  dsimp only
  rw [hto, wrap_capped (by omega) hmax hlt, toInt_of_lt (by omega)]
  set n := min toInsert.toNat (maxSize - sample.size) with hn
  refine (spec_randBetween le_rfl (by omega) (by omega) (by omega)).bind_congr fun position hp => ?_
  have hlen : sample.bytes.length = sample.size := rfl
  have hposition : position.toNat ≤ sample.size := by omega
  rw [toSize_of_nonneg (by omega) (by omega), if_neg (by omega), wrap_of_lt (by omega),
    memcpy_malloc (by omega) (by omega), slice_zero, access_some, pure_bind,
    storeRandom_written (by rw [List.length_take]; omega) (by omega), bind_assoc]
  refine (spec_randBytes n).bind_congr fun ins hins => ?_
  rw [pure_bind, minus_of_le hposition (by omega), memcpy_written
    (by rw [List.length_append, List.length_take, hins]; omega) (by omega) (by omega), access_some,
    pure_bind, slice_to_end (by omega), setBytes_written (by omega), pure_bind, inserted]
  rw [List.length_append, List.length_append, List.length_take, List.length_drop, hins]
  omega

/-- How often a block is duplicated: no division by zero, and no negative number.  The count
that was drawn is cut to what fits below `max_size`. -/
theorem blockCount_eq {minDuplicateCnt maxDuplicateCnt blockcount : ℤ} {blocksize : ℕ}
    (hsize : sample.size < maxSize) (hbounds : Bounds minDuplicateCnt maxDuplicateCnt)
    (hv : minDuplicateCnt ≤ blockcount ∧ blockcount ≤ maxDuplicateCnt) (hpos : 1 ≤ blocksize)
    (hblock : blocksize ≤ sample.size) :
    blockCount maxSize sample.size blocksize blockcount =
      pure ((min blockcount.toNat ((maxSize - sample.size) / blocksize) : ℕ) : ℤ) := by
  obtain ⟨hto, h1, hlt⟩ := hbounds.toSize_eq hv
  have hmul : blockcount.toNat * blocksize ≤ 2 ^ 31 * 2 ^ 31 :=
    Nat.mul_le_mul hlt.le (by omega)
  have hfits : sample.size + blockcount.toNat * blocksize > maxSize ↔
      (maxSize - sample.size) / blocksize < blockcount.toNat := by
    rw [Nat.div_lt_iff_lt_mul (by omega)]
    omega
  have hdiv : (maxSize - sample.size) / blocksize ≤ maxSize - sample.size := Nat.div_le_self _ _
  rw [blockCount, hto, wrap_of_lt (by omega : blockcount.toNat * blocksize < 2 ^ 64),
    wrap_of_lt (by omega), if_neg (by omega : ¬ blocksize = 0), minus_of_le hsize.le (by omega)]
  generalize (maxSize - sample.size) / blocksize = fitting at hfits hdiv
  split
  · rename_i hover
    have := hfits.1 hover
    rw [Int.bmod_eq_of_le (by omega) (by omega), Nat.min_eq_right (by omega)]
  · rename_i hover
    have : ¬ fitting < blockcount.toNat := fun h => hover (hfits.2 h)
    rw [Nat.min_eq_left (by omega)]
    congr 1
    omega

omit hmax in
/-- The loop puts one copy behind the other, each read from the sample and written behind
what is there, so that `n` copies take `n` times the block's size of the room.  -/
theorem duplicateLoop_eq {xs : Bytes} {blockpos blocksize n i room : ℕ}
    (hinside : blockpos + blocksize ≤ sample.size) (hxs : xs.length = blockpos + (i + 1) * blocksize)
    (hroom : n * blocksize ≤ room) (hlt : (n + i) * blocksize < 2 ^ 64) :
    duplicateLoop (of sample.bytes) blockpos blocksize n i (written xs room) =
      some (written (xs ++ (List.replicate n (slice sample.bytes blockpos blocksize)).flatten)
        (room - n * blocksize)) := by
  induction n generalizing xs i room with
  | zero =>
      rw [duplicateLoop, List.replicate_zero, List.flatten_nil, List.append_nil, Nat.zero_mul, Nat.sub_zero]
  | succ n ih =>
      have hone : (n + 1) * blocksize = blocksize + n * blocksize := by
        rw [Nat.add_mul, Nat.one_mul, Nat.add_comm]
      have hnext : (i + 1 + 1) * blocksize = (i + 1) * blocksize + blocksize := by
        rw [Nat.add_mul, Nat.one_mul]
      have hwrap : wrap ((i + 1) * blocksize) = (i + 1) * blocksize := by
        refine wrap_of_lt (lt_of_le_of_lt (Nat.mul_le_mul_right blocksize ?_) hlt)
        omega
      rw [duplicateLoop, hwrap, memcpy_written hxs.symm (by omega) hinside]
      show duplicateLoop _ _ _ n (i + 1) (written _ _) = _
      rw [ih (by rw [List.length_append, length_slice hinside, hxs, hnext]; omega) (by omega) (by
          rwa [show n + (i + 1) = n + 1 + i by omega]),
        List.replicate_succ, List.flatten_cons, List.append_assoc, hone, Nat.sub_sub]

/-- `BlockDuplicateMutator` puts copies of a block in behind it: the new block has the bytes
up to the end of the block, the copies, and the bytes behind.  -/
theorem blockDuplicateMutate_eq {minBlockSize maxBlockSize minDuplicateCnt maxDuplicateCnt : ℤ}
    (hblocks : Bounds minBlockSize maxBlockSize) (hcnt : Bounds minDuplicateCnt maxDuplicateCnt) :
    blockDuplicateMutate maxSize minBlockSize maxBlockSize minDuplicateCnt maxDuplicateCnt sample =
      blockDuplication maxSize minBlockSize maxBlockSize minDuplicateCnt maxDuplicateCnt sample := by
  rw [blockDuplicateMutate, blockDuplication]
  by_cases hfull : sample.size ≥ maxSize
  · rw [if_pos hfull, if_pos hfull]
  have hle := hblocks.le
  obtain ⟨hmin, hmin1, hminlt⟩ := hblocks.toSize_eq ⟨le_rfl, hle⟩
  obtain ⟨hmaxb, -, hmaxlt⟩ := hblocks.toSize_eq ⟨hle, le_rfl⟩
  rw [if_neg hfull, if_neg hfull, hmin, hmaxb]
  refine (spec_getRandBlock hmin1 (fun _ => by omega) hmaxlt (by omega)).bind_congr fun block hblock => ?_
  rcases block with _ | ⟨blockpos, blocksize⟩
  · rfl
  have hlow : minBlockSize.toNat ≤ blocksize := hblock.min_le
  have hinside : blockpos + blocksize ≤ sample.size := hblock.inside
  refine hcnt.spec.bind_congr fun blockcount hv => ?_
  rw [blockCount_eq hmax sample (by omega) hcnt hv (by omega) (by omega), pure_bind]
  dsimp only
  have hfits := copies_fit blockcount.toNat (maxSize - sample.size) blocksize
  have hfew : min blockcount.toNat ((maxSize - sample.size) / blocksize) ≤ maxSize - sample.size :=
    (Nat.min_le_right _ _).trans (Nat.div_le_self _ _)
  generalize min blockcount.toNat ((maxSize - sample.size) / blocksize) = n at hfits hfew
  by_cases hzero : n = 0
  -- not one copy fits: the source returns here, and what is put in is empty
  · rw [if_pos (by omega), hzero, List.replicate_zero, List.flatten_nil, inserted, List.append_nil,
      List.take_append_drop, Sample.init_self]
  have hlen : sample.bytes.length = sample.size := rfl
  have hsucc : (n + 1) * blocksize = n * blocksize + blocksize := by rw [Nat.add_mul, Nat.one_mul]
  rw [if_neg (by omega), toSize_of_nonneg (by omega) (by omega), toSize_of_nonneg (by omega) (by omega),
    show ((n : ℤ) + 1).toNat = n + 1 by omega, Int.toNat_natCast, hsucc,
    wrap_of_lt (by omega : n * blocksize < 2 ^ 64), wrap_of_lt (by omega : blockpos + blocksize < 2 ^ 64),
    wrap_of_lt (by omega : sample.size + n * blocksize < 2 ^ 64),
    wrap_of_lt (by omega : n * blocksize + blocksize < 2 ^ 64), memcpy_malloc (by omega) (by omega),
    slice_zero, access_some, pure_bind, duplicateLoop_eq sample hinside (by
      rw [List.length_take, Nat.zero_add, Nat.one_mul]
      omega) (by omega) (by rw [Nat.add_zero]; omega), access_some, pure_bind,
    minus_of_le (by omega : blockpos ≤ sample.size) (by omega), minus_of_le (by omega) (by omega)]
  have hcopies := length_copies hinside n
  rw [memcpy_written (by rw [List.length_append, List.length_take, hcopies]; omega) (by omega) (by omega),
    access_some, pure_bind, slice_to_end
      (by omega : sample.bytes.length ≤ blockpos + blocksize + (sample.size - blockpos - blocksize))]
  rw [setBytes_written (by omega), pure_bind, inserted]
  rw [List.length_append, List.length_append, List.length_take, List.length_drop, hcopies]
  omega

end Insertion

/-! ### What the mutators make of a sample -/

/-- An insertion makes the sample longer by what is inserted, wherever it is put in.  -/
theorem size_inserted {sample : Sample} {position : ℕ} {ins : Bytes} (hpos : position ≤ sample.size)
    (hlt : sample.size + ins.length < 2 ^ 64) :
    (inserted sample position ins).size = sample.size + ins.length := by
  have hlen : (sample.bytes.take position ++ ins ++ sample.bytes.drop position).length =
      sample.size + ins.length := by
    unfold Sample.size at hpos ⊢
    rw [List.length_append, List.length_append, List.length_take, List.length_drop]
    omega
  rw [Sample.size, inserted, Sample.init_bytes (by omega), hlen]

/-- Only nothing can be put in without a trace: an insertion that leaves the sample as it is
was one of no bytes.  -/
theorem inserted_eq_self_iff {sample : Sample} {position : ℕ} {ins : Bytes} (hpos : position ≤ sample.size)
    (hlt : sample.size + ins.length < 2 ^ 64) : inserted sample position ins = sample ↔ ins = [] := by
  constructor
  · intro h
    have hsize := size_inserted hpos hlt
    rw [h] at hsize
    exact List.length_eq_zero_iff.1 (by omega)
  · rintro rfl
    rw [inserted, List.append_nil, List.take_append_drop, Sample.init_self]

/-- Bytes were put in at a position, as far as there is room; the sample is the same only
if there is none. -/
def BlockInserted (maxSize : ℕ) (sample : Sample) (position : ℕ) (result : Bool × Sample) : Prop :=
  position ≤ sample.size ∧ ∃ ins, result = (true, inserted sample position ins) ∧
    result.2.size ≤ maxSize ∧ (result.2 = sample ↔ sample.size = maxSize)

/-- Copies of a block were put in behind it: as many as were drawn, or as fit.  The sample
is the same only if it is full, if no block can be drawn, or if not one copy fits. -/
def BlockDuplicated (maxSize : ℕ) (minBlockSize maxBlockSize minDuplicateCnt maxDuplicateCnt : ℤ)
    (sample : Sample) (result : Bool × Sample) : Prop :=
  (result = (true, sample) ∧ (sample.size = maxSize ∨ sample.size < minBlockSize)) ∨
    (sample.size < maxSize ∧ ∃ blockpos blocksize : ℕ, ∃ blockcount : ℤ,
      minBlockSize ≤ blocksize ∧ blocksize ≤ maxBlockSize ∧ blockpos + blocksize ≤ sample.size ∧
      minDuplicateCnt ≤ blockcount ∧ blockcount ≤ maxDuplicateCnt ∧
      result = (true, inserted sample (blockpos + blocksize)
        (List.replicate (min blockcount.toNat ((maxSize - sample.size) / blocksize))
          (slice sample.bytes blockpos blocksize)).flatten) ∧
      result.2.size ≤ maxSize ∧ (result.2 = sample ↔ maxSize < sample.size + blocksize))

/-- A sample that takes what was drawn, or as much of it as fits, takes at least one byte. -/
theorem blockInserted_of_lt {maxSize n : ℕ} {sample : Sample} {position : ℕ} {ins : Bytes}
    (hmax : maxSize < 2 ^ 31) (hsize : sample.size < maxSize) (hpos : position ≤ sample.size)
    (hn : 1 ≤ n) (hins : ins.length = min n (maxSize - sample.size)) :
    BlockInserted maxSize sample position (true, inserted sample position ins) := by
  refine ⟨hpos, ins, rfl, ?_, ?_⟩
  · rw [size_inserted hpos (by omega)]
    omega
  · rw [inserted_eq_self_iff hpos (by omega), ← List.length_eq_zero_iff]
    omega

/-- A sample that is as large as it may be is left as it is; the answer is `true` all the
same.  -/
theorem blockInserted_of_full {maxSize : ℕ} {sample : Sample} {position : ℕ}
    (hpos : position ≤ sample.size) (hfull : sample.size = maxSize) :
    BlockInserted maxSize sample position (true, sample) := by
  refine ⟨hpos, [], ?_, hfull.le, fun _ => hfull, fun _ => rfl⟩
  rw [inserted, List.append_nil, List.take_append_drop, Sample.init_self]

section Results

variable {maxSize : ℕ} (hmax : maxSize < 2 ^ 31) (sample : Sample) (hsize : sample.size ≤ maxSize)

include hmax hsize

/-- **`AppendMutator`** writes a new block behind the sample, as long as was drawn, or as
long as there is room.  -/
theorem spec_appendMutator {minAppend maxAppend : ℤ} (hbounds : Bounds minAppend maxAppend) :
    Spec (appendMutator maxSize minAppend maxAppend sample) (BlockInserted maxSize sample sample.size)
      (· = .noDraws) := by
  rw [appendMutator]
  split
  · rename_i hfull
    exact Spec.pure (blockInserted_of_full le_rfl (by omega))
  rename_i hfull
  refine hbounds.spec.bind fun append hv => ?_
  obtain ⟨hto, hpos, hlt⟩ := hbounds.toSize_eq hv
  have hto' : (append % 2 ^ 64).toNat = append.toNat := hto
  have hcap : (if (sample.size + append.toNat) % 2 ^ 64 > maxSize then maxSize - sample.size
      else append.toNat) = min append.toNat (maxSize - sample.size) :=
    wrap_capped (by omega : sample.size < maxSize) hmax hlt
  dsimp only
  rw [hto', hcap, if_neg (by omega)]
  refine (spec_randBytes _).bind fun ins hins => Spec.pure ?_
  have hwhole : Sample.init (sample.bytes ++ ins) = inserted sample sample.size ins := by
    rw [inserted, Sample.size, List.take_length, List.drop_length, List.append_nil]
  rw [hwhole]
  exact blockInserted_of_lt hmax (by omega) le_rfl hpos hins

/-- **`BlockInsertionMutator`** writes a new block somewhere into the sample, as long as was
drawn, or as long as there is room.  -/
theorem spec_blockInsertion {minInsert maxInsert : ℤ} (hbounds : Bounds minInsert maxInsert) :
    Spec (blockInsertion maxSize minInsert maxInsert sample)
      (fun result => ∃ position, BlockInserted maxSize sample position result) (· = .noDraws) := by
  rw [blockInsertion]
  split
  · rename_i hfull
    exact Spec.pure ⟨0, blockInserted_of_full (Nat.zero_le _) (by omega)⟩
  rename_i hfull
  refine hbounds.spec.bind fun toInsert hv => ?_
  obtain ⟨-, hpos, -⟩ := hbounds.toSize_eq hv
  refine (spec_randBetween le_rfl (by omega) (by omega) (by omega)).bind fun position hp => ?_
  refine (spec_randBytes _).bind fun ins hins => Spec.pure ⟨position.toNat, ?_⟩
  exact blockInserted_of_lt hmax (by omega) (by omega) hpos hins

/-- **`BlockDuplicationMutator`** writes a block of the sample behind itself, as often as
was drawn or as there is room for.  -/
theorem spec_blockDuplication {minBlockSize maxBlockSize minDuplicateCnt maxDuplicateCnt : ℤ}
    (hblocks : Bounds minBlockSize maxBlockSize) (hcnt : Bounds minDuplicateCnt maxDuplicateCnt) :
    Spec (blockDuplication maxSize minBlockSize maxBlockSize minDuplicateCnt maxDuplicateCnt sample)
      (BlockDuplicated maxSize minBlockSize maxBlockSize minDuplicateCnt maxDuplicateCnt sample)
      (· = .noDraws) := by
  rw [blockDuplication]
  split
  · rename_i hfull
    exact Spec.pure (Or.inl ⟨rfl, Or.inl (by omega)⟩)
  rename_i hfull
  have hle := hblocks.le
  obtain ⟨-, hmin1, -⟩ := hblocks.toSize_eq ⟨le_rfl, hle⟩
  obtain ⟨-, -, hmaxlt⟩ := hblocks.toSize_eq ⟨hle, le_rfl⟩
  refine (spec_getRandBlock hmin1 (fun _ => by omega) hmaxlt (by omega)).bind fun block hblock => ?_
  rcases block with _ | ⟨blockpos, blocksize⟩
  · have hsmall : sample.size < minBlockSize.toNat := hblock
    exact Spec.pure (Or.inl ⟨rfl, Or.inr (by omega)⟩)
  have hlow : minBlockSize.toNat ≤ blocksize := hblock.min_le
  have hhigh : blocksize ≤ maxBlockSize.toNat := hblock.le_max
  have hinside : blockpos + blocksize ≤ sample.size := hblock.inside
  refine hcnt.spec.bind fun blockcount hv => Spec.pure (Or.inr ?_)
  refine ⟨by omega, blockpos, blocksize, blockcount, by omega, by omega, hinside, hv.1, hv.2, rfl, ?_⟩
  obtain ⟨-, hcount, -⟩ := hcnt.toSize_eq hv
  have hfits := copies_fit blockcount.toNat (maxSize - sample.size) blocksize
  have hnone : min blockcount.toNat ((maxSize - sample.size) / blocksize) = 0 ↔
      maxSize < sample.size + blocksize := by
    have := Nat.div_eq_zero_iff_lt (k := blocksize) (x := maxSize - sample.size) (by omega)
    omega
  generalize min blockcount.toNat ((maxSize - sample.size) / blocksize) = n at hfits hnone
  have hcopies := length_copies hinside n
  constructor
  · rw [size_inserted hinside (by omega), hcopies]
    omega
  · rw [inserted_eq_self_iff hinside (by omega), ← hnone, ← List.length_eq_zero_iff, hcopies,
      Nat.mul_eq_zero]
    omega

/-- **The mutators that insert a block insert it and do nothing else.**  On blocks of memory
they do, for the same draws, what `appendMutator`, `blockInsertion` and `blockDuplication` do
on samples, so no draw takes them out of a block or lets them divide by zero; and what they
return has bytes put in at one position, and no more than fit. -/
theorem blockMutators_insert :
    (∀ minAppend maxAppend, Bounds minAppend maxAppend →
      appendMutate maxSize minAppend maxAppend sample =
          appendMutator maxSize minAppend maxAppend sample ∧
        Spec (appendMutate maxSize minAppend maxAppend sample)
          (BlockInserted maxSize sample sample.size) (· = .noDraws)) ∧
      (∀ minInsert maxInsert, Bounds minInsert maxInsert →
        blockInsertMutate maxSize minInsert maxInsert sample =
            blockInsertion maxSize minInsert maxInsert sample ∧
          Spec (blockInsertMutate maxSize minInsert maxInsert sample)
            (fun result => ∃ position, BlockInserted maxSize sample position result) (· = .noDraws)) ∧
      ∀ minBlockSize maxBlockSize minDuplicateCnt maxDuplicateCnt, Bounds minBlockSize maxBlockSize →
        Bounds minDuplicateCnt maxDuplicateCnt →
        blockDuplicateMutate maxSize minBlockSize maxBlockSize minDuplicateCnt maxDuplicateCnt sample =
            blockDuplication maxSize minBlockSize maxBlockSize minDuplicateCnt maxDuplicateCnt sample ∧
          Spec (blockDuplicateMutate maxSize minBlockSize maxBlockSize minDuplicateCnt maxDuplicateCnt
              sample)
            (BlockDuplicated maxSize minBlockSize maxBlockSize minDuplicateCnt maxDuplicateCnt sample)
            (· = .noDraws) := by
  refine ⟨fun minAppend maxAppend hbounds => ?_, fun minInsert maxInsert hbounds => ?_,
    fun minBlockSize maxBlockSize minDuplicateCnt maxDuplicateCnt hblocks hcnt => ?_⟩
  · have heq := appendMutate_eq hmax sample hbounds
    exact ⟨heq, by
      rw [heq]
      exact spec_appendMutator hmax sample hsize hbounds⟩
  · have heq := blockInsertMutate_eq hmax sample hbounds
    exact ⟨heq, by
      rw [heq]
      exact spec_blockInsertion hmax sample hsize hbounds⟩
  · have heq := blockDuplicateMutate_eq hmax sample hblocks hcnt
    exact ⟨heq, by
      rw [heq]
      exact spec_blockDuplication hmax sample hsize hblocks hcnt⟩

end Results

/-- Blocks of one or two bytes out of three, with room for five more: all three mutators are
applied to the same sample, with bounds that leave the draws a choice.  -/
theorem blockMutators_insert_threeBytes :
    blockDuplicateMutate 8 1 2 1 5 (Sample.init [1, 2, 3]) =
        blockDuplication 8 1 2 1 5 (Sample.init [1, 2, 3]) ∧
      Spec (blockDuplicateMutate 8 1 2 1 5 (Sample.init [1, 2, 3]))
        (BlockDuplicated 8 1 2 1 5 (Sample.init [1, 2, 3])) (· = .noDraws) :=
  (blockMutators_insert (by decide : 8 < 2 ^ 31) (Sample.init [1, 2, 3]) (by decide)).2.2 1 2 1 5
    ⟨by decide, by decide, by decide⟩ ⟨by decide, by decide, by decide⟩

/-- Five copies of two bytes are drawn, and two fit. -/
example : blockDuplicateMutate 8 1 2 1 5 (Sample.init [1, 2, 3]) [1, 0, 4] =
    .ok ((true, Sample.init [1, 2, 1, 2, 1, 2, 3]), []) := by decide +kernel

end Mutators
end Jackalope
