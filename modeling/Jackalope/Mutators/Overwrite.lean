/-
# Mutators that write over a block

`ByteFlipMutator`, `ArithmeticMutator`, `BlockFlipMutator` and `InterestingValueMutator`
(`mutator.cpp`, lines 43-105 and 181-238).  They keep the size of a sample and write over one
block of it: a byte, a number, random bytes, or one of the interesting values.

A number is read and written as the machine does, least significant byte first;
`FlipEndian` before and after makes it one that is stored the other way round
(`flipEndian_ofLE`), so what `ArithmeticMutator` adds is added to the number in either order.
-/

import Jackalope.Foundation.LittleEndian
import Jackalope.Mutators.Splice

namespace Jackalope
namespace Mutators

open Foundation Foundation.Consumer Foundation.Buffer

/-! ### The mutators -/

/-- `ByteFlipMutator::Mutate`. -/
def byteFlipMutate : MutateSample := fun inoutSample =>
  if inoutSample.size = 0 then pure (true, inoutSample)
  else do
    let charpos ← randBetween 0 (toInt (minus inoutSample.size 1))
    let c ← randBetween 0 255
    let bytes ← access (store (of inoutSample.bytes) (toSize charpos) (UInt8.ofNat c.toNat))
    let inoutSample ← setBytes bytes inoutSample.size
    pure (true, inoutSample)

/-- The loop of `FlipEndian` for a number of `k` bytes; so many more rounds. -/
def flipLoop (k : ℕ) : ℕ → ℕ → ℕ → ℕ
  | 0, out, _ => out
  | rounds + 1, out, value =>
      flipLoop k rounds (out * 256 % 256 ^ k + value % 256) (value / 256)

/-- `Mutator::FlipEndian`, where `T` has `k` bytes. -/
def flipEndian (k value : ℕ) : ℕ := flipLoop k k 0 value

/-- `ArithmeticMutator::MutateArithmeticValue`, where `T` has `k` bytes. -/
def mutateArithmeticValue (k : ℕ) (flip : ℤ) : MutateSample := fun inoutSample => do
  let block ← getRandBlock inoutSample.size k k
  match block with
  | none => pure (true, inoutSample)
  | some (blockstart, _) => do
      let data ← access (load (of inoutSample.bytes) blockstart k)
      let value := if flip ≠ 0 then flipEndian k (ofLE data) else ofLE data
      let change ← randBetween (-256) 256
      let value := ((value + change) % 256 ^ k).toNat
      let value := if flip ≠ 0 then flipEndian k value else value
      let bytes ← access (memcpy (of inoutSample.bytes) blockstart (of (toLE k value)) 0 k)
      let inoutSample ← setBytes bytes inoutSample.size
      pure (true, inoutSample)

/-- `ArithmeticMutator::Mutate`. -/
def arithmeticMutate : MutateSample := fun inoutSample => do
  let flip ← randBetween 0 1
  let size ← randBetween 0 2
  if size = 0 then mutateArithmeticValue 2 flip inoutSample
  else if size = 1 then mutateArithmeticValue 4 flip inoutSample
  else if size = 2 then mutateArithmeticValue 8 flip inoutSample
  else pure (true, inoutSample)

/-- `for (...) bytes[i] = c`: `n` more rounds from `i` on. -/
def storeSame (c : UInt8) : ℕ → ℕ → Buffer UInt8 → Draws (Buffer UInt8)
  | 0, _, bytes => pure bytes
  | n + 1, i, bytes => do
      let bytes ← access (store bytes i c)
      storeSame c n (i + 1) bytes

/-- `BlockFlipMutator::Mutate`. -/
def blockFlipMutate (minBlockSize maxBlockSize : ℤ) (uniform : Bool) : MutateSample :=
  fun inoutSample => do
    let block ← getRandBlock inoutSample.size (toSize minBlockSize) (toSize maxBlockSize)
    match block with
    | none => pure (true, inoutSample)
    | some (blockpos, blocksize) => do
        let bytes ←
          if uniform then do
            let c ← randBetween 0 255
            storeSame (UInt8.ofNat c.toNat) blocksize blockpos (of inoutSample.bytes)
          else storeRandom blocksize blockpos (of inoutSample.bytes)
        let inoutSample ← setBytes bytes inoutSample.size
        pure (true, inoutSample)

/-- `InterestingValueMutator::Mutate`. -/
def interestingValueMutate (interestingValues : List Sample) : MutateSample := fun inoutSample =>
  if interestingValues = [] then pure (true, inoutSample)
  else do
    let i ← randBetween 0 (toInt interestingValues.length - 1)
    let interestingSample ← access interestingValues[toSize i]?
    let block ← getRandBlock inoutSample.size interestingSample.size interestingSample.size
    match block with
    | none => pure (true, inoutSample)
    | some (blockstart, _) => do
        let bytes ← access (memcpy (of inoutSample.bytes) blockstart (of interestingSample.bytes) 0
          interestingSample.size)
        let inoutSample ← setBytes bytes inoutSample.size
        pure (true, inoutSample)

/-! ### The other byte order -/

/-- The bytes that are left go behind those that were taken, the last one first, so the loop
turns the bytes of the word around.  -/
theorem flipLoop_ofLE {k : ℕ} (bs taken : List UInt8) (h : taken.length + bs.length ≤ k) :
    flipLoop k bs.length (ofLE taken) (ofLE bs) = ofLE (bs.reverse ++ taken) := by
  induction bs generalizing taken with
  | nil => rfl
  | cons b bs ih =>
      have hb := b.toNat_lt
      rw [List.length_cons] at h
      have hpow : 256 ^ (taken.length + 1) ≤ 256 ^ k := Nat.pow_le_pow_right (by omega) (by omega)
      have htaken := ofLE_lt taken
      have hstep : ofLE taken * 256 % 256 ^ k + ofLE (b :: bs) % 256 = ofLE (b :: taken) := by
        rw [Nat.pow_succ] at hpow
        rw [Nat.mod_eq_of_lt (by omega), ofLE, ofLE]
        omega
      have hrest : ofLE (b :: bs) / 256 = ofLE bs := by
        rw [ofLE]
        omega
      rw [List.length_cons, flipLoop, hstep, hrest, ih (b :: taken) (by rw [List.length_cons]; omega),
        List.reverse_cons, List.append_assoc, List.singleton_append]

/-- **`FlipEndian` turns the bytes of a number round.** -/
theorem flipEndian_ofLE {k : ℕ} {bs : List UInt8} (h : bs.length = k) :
    flipEndian k (ofLE bs) = ofLE bs.reverse := by
  have := flipLoop_ofLE (k := k) bs [] (by rw [List.length_nil]; omega)
  rwa [h, List.append_nil] at this

/-- A number in memory, in one byte order or the other. -/
def numberAt (flipped : Bool) (data : Bytes) : ℕ := ofLE (if flipped then data.reverse else data)

/-- The `k` bytes of a number in memory. -/
def bytesOf (flipped : Bool) (k value : ℕ) : Bytes :=
  if flipped then (toLE k value).reverse else toLE k value

/-- A number is written with as many bytes as its type has, in either order.  -/
theorem length_bytesOf (flipped : Bool) (k value : ℕ) : (bytesOf flipped k value).length = k := by
  rw [bytesOf]
  split
  · rw [List.length_reverse, length_toLE]
  · exact length_toLE k value

/-- It is read back in the same order.  -/
theorem numberAt_bytesOf {flipped : Bool} {k value : ℕ} (h : value < 256 ^ k) :
    numberAt flipped (bytesOf flipped k value) = value := by
  cases flipped with
  | true =>
      show ofLE (toLE k value).reverse.reverse = value
      rw [List.reverse_reverse, ofLE_toLE_of_lt h]
  | false => exact ofLE_toLE_of_lt h

/-- What is stored, in the other order, is the number turned round: the bytes of the flipped
number are those of the number from the last one on.  -/
theorem toLE_flipEndian {k value : ℕ} (h : value < 256 ^ k) :
    toLE k (flipEndian k value) = bytesOf true k value := by
  have hflip := flipEndian_ofLE (length_toLE k value)
  rw [ofLE_toLE_of_lt h] at hflip
  have hlen : (toLE k value).reverse.length = k := by rw [List.length_reverse, length_toLE]
  have := toLE_ofLE (toLE k value).reverse
  rw [hlen] at this
  rw [hflip, this, bytesOf, if_pos rfl]

/-! ### Blocks that are written over -/

/-- A sample with bytes written over those from a position on. -/
def overwritten (sample : Sample) (pos : ℕ) (data : Bytes) : Sample :=
  Sample.init (paste sample.bytes pos data)

section Overwritten

variable {sample : Sample} {pos : ℕ} {data : Bytes} (h : pos + data.length ≤ sample.size)

include h

/-- What is in the sample that was written to.  -/
theorem bytes_overwritten : (overwritten sample pos data).bytes = paste sample.bytes pos data := by
  have := sample.size_lt
  exact Sample.init_bytes (by rwa [length_paste h])

/-- Writing within a sample keeps its size.  -/
theorem size_overwritten : (overwritten sample pos data).size = sample.size := by
  rw [Sample.size, bytes_overwritten h, length_paste h, Sample.size]

/-- A block of memory in which the bytes were written over is such a sample. -/
theorem setBytes_paste :
    setBytes (of (paste sample.bytes pos data)) sample.size = pure (overwritten sample pos data) :=
  setBytes_of (length_paste h)

/-- All bytes of another block are copied over those of a sample. -/
theorem memcpy_paste {n : ℕ} (hn : n = data.length) :
    memcpy (of sample.bytes) pos (of data) 0 n = some (of (paste sample.bytes pos data)) := by
  subst hn
  rw [memcpy_of h (Nat.zero_add _).le, slice_zero, List.take_length]
  rfl

end Overwritten

/-- One byte is stored in the block: the bytes are those with the one at the position
replaced.  -/
theorem store_paste {xs : Bytes} {pos : ℕ} (h : pos < xs.length) (c : UInt8) :
    store (of xs) pos c = some (of (paste xs pos [c])) := by
  have hset : (of xs).set pos (some c) = of (paste xs pos [c]) := by
    rw [of, ← List.map_set, of]
    congr 1
    rw [paste, List.length_singleton, List.set_eq_take_append_cons_drop, if_pos h, List.append_assoc,
      List.singleton_append]
  rw [store, if_pos (by rwa [length_of]), hset]

/-- One byte and then those behind it: pasting byte by byte and pasting the whole block are
the same.  -/
theorem paste_cons {xs ins : Bytes} {pos : ℕ} (h : pos + (ins.length + 1) ≤ xs.length) (c : UInt8) :
    paste (paste xs pos [c]) (pos + 1) ins = paste xs pos (c :: ins) := by
  have hcons : (c :: ins).length = ins.length + 1 := List.length_cons
  have hsingle : [c].length = 1 := List.length_singleton
  have hone : pos + [c].length ≤ xs.length := by omega
  refine List.ext_getElem? fun i => ?_
  rw [getElem?_paste (by rw [length_paste hone]; omega), getElem?_paste hone,
    getElem?_paste (by omega), hcons, hsingle]
  by_cases hi : i = pos
  · subst hi
    rw [if_neg (by omega), if_pos (by omega), if_pos (by omega), Nat.sub_self]
    rfl
  by_cases hin : pos + 1 ≤ i ∧ i < pos + 1 + ins.length
  · rw [if_pos hin, if_pos (by omega), show i - pos = i - (pos + 1) + 1 by omega, List.getElem?_cons_succ]
  · rw [if_neg hin, if_neg (by omega), if_neg (by omega)]

/-- Pasting nothing changes nothing.  -/
theorem paste_nil (xs : Bytes) (pos : ℕ) : paste xs pos [] = xs := by
  rw [paste, List.append_nil, List.length_nil, Nat.add_zero, List.take_append_drop]

/-- The loop that stores one byte again and again pastes so many of it.  -/
theorem storeSame_of {xs : Bytes} {n pos : ℕ} (h : pos + n ≤ xs.length) (c : UInt8) :
    storeSame c n pos (of xs) = pure (of (paste xs pos (List.replicate n c))) := by
  induction n generalizing xs pos with
  | zero => rw [List.replicate_zero, paste_nil, storeSame]
  | succ n ih =>
      have hone : pos + [c].length ≤ xs.length := by
        rw [List.length_singleton]
        omega
      rw [storeSame, store_paste (by omega), access_some, pure_bind, ih (by rw [length_paste hone]; omega),
        paste_cons (by rw [List.length_replicate]; omega), List.replicate_succ]

/-- The loop that stores a new byte in each round pastes as many bytes as it draws, and
writes nowhere else.  -/
theorem storeRandom_of {xs : Bytes} {n pos : ℕ} (h : pos + n ≤ xs.length) :
    storeRandom n pos (of xs) = randBytes n >>= fun ins => pure (of (paste xs pos ins)) := by
  induction n generalizing xs pos with
  | zero =>
      show pure (of xs) = (pure [] >>= fun ins => pure (of (paste xs pos ins)))
      rw [pure_bind, paste_nil]
  | succ n ih =>
      rw [storeRandom, randBytes, times, bind_assoc, bind_assoc]
      congr 1
      funext c
      have hone : pos + [UInt8.ofNat c.toNat].length ≤ xs.length := by
        rw [List.length_singleton]
        omega
      rw [store_paste (by omega), access_some, pure_bind, pure_bind, bind_assoc,
        ih (by rw [length_paste hone]; omega)]
      refine (spec_randBytes n).bind_congr fun ins hins => ?_
      rw [pure_bind, paste_cons (by omega)]

/-! ### What the mutators make of a sample -/

/-- A number between any two bounds whose distance an `int` can hold, negative ones
included: the draw is added to the lower bound.  -/
theorem spec_randBetween_int {min max : ℤ} (hmin : -2 ^ 31 ≤ min) (h : min ≤ max)
    (hlt : max - min + 1 < 2 ^ 31) (hmax : max < 2 ^ 31) :
    Spec (randBetween min max) (fun v => min ≤ v ∧ v ≤ max) (· = .noDraws) := by
  rw [randBetween]
  split
  · rename_i heq
    exact Spec.pure ⟨le_rfl, heq.le⟩
  rw [if_neg (by omega), Int.emod_eq_of_lt (by omega) (by omega)]
  refine (spec_randMod (by omega)).bind fun r hr => Spec.pure ?_
  rw [Int.bmod_eq_of_le (by omega) (by omega)]
  omega

/-- Bytes were written over a block of the sample, or none where it has no such block. -/
def WritesBlock (sample : Sample) (P : ℕ → Bytes → Prop) (result : Bool × Sample) : Prop :=
  result = (true, sample) ∨ ∃ pos data, pos + data.length ≤ sample.size ∧ P pos data ∧
    result = (true, overwritten sample pos data)

/-- The number in a block is changed by at most 256, in one byte order or the other. -/
def NumberChanged (sample : Sample) (pos : ℕ) (data : Bytes) : Prop :=
  ∃ k flipped, ∃ change : ℤ, k ∈ [2, 4, 8] ∧ -256 ≤ change ∧ change ≤ 256 ∧ data.length = k ∧
    (numberAt flipped data : ℤ) =
      (numberAt flipped (slice sample.bytes pos k) + change) % 256 ^ k

section Results

variable (sample : Sample) (hsize : sample.size < 2 ^ 31)

include hsize

/-- **`ByteFlipMutator`** writes one byte, somewhere in a sample that is not empty; an empty
sample it leaves alone.  -/
theorem spec_byteFlipMutate :
    Spec (byteFlipMutate sample) (WritesBlock sample fun _ data => data.length = 1) (· = .noDraws) := by
  rw [byteFlipMutate]
  split
  · exact Spec.pure (Or.inl rfl)
  rw [minus_of_le (by omega) (by omega), toInt_of_lt (by omega)]
  refine (spec_randBetween le_rfl (by omega) (by omega) (by omega)).bind fun charpos hpos => ?_
  refine spec_randByte.bind fun c _ => ?_
  have hlt : charpos.toNat < sample.bytes.length := by
    have : sample.size = sample.bytes.length := rfl
    omega
  rw [toSize_of_nonneg (by omega) (by omega), store_paste hlt, access_some, pure_bind,
    setBytes_paste (show _ ≤ sample.bytes.length from hlt), pure_bind]
  exact Spec.pure (Or.inr ⟨_, _, hlt, rfl, rfl⟩)

/-- **`MutateArithmeticValue`**, for the three widths: a number is read, something small
added to it or subtracted from it, and the result written back, in either byte order.  -/
theorem spec_mutateArithmeticValue {k : ℕ} (hk : k ∈ [2, 4, 8]) (flip : ℤ) :
    Spec (mutateArithmeticValue k flip sample) (WritesBlock sample (NumberChanged sample))
      (· = .noDraws) := by
  have hk8 : 1 ≤ k ∧ k ≤ 8 := by
    simp only [List.mem_cons, List.not_mem_nil, or_false] at hk
    omega
  rw [mutateArithmeticValue]
  refine (spec_getRandBlock hk8.1 (fun _ => le_rfl) (by omega) hsize).bind fun block hblock => ?_
  rcases block with _ | ⟨blockstart, blocksize⟩
  · exact Spec.pure (Or.inl rfl)
  obtain rfl : blocksize = k := le_antisymm hblock.le_max hblock.min_le
  have hinside : blockstart + blocksize ≤ sample.bytes.length := hblock.inside
  have hlen := length_slice hinside
  dsimp only
  rw [load_of hinside, access_some, pure_bind]
  refine (spec_randBetween_int (by decide) (by decide) (by decide) (by decide)).bind fun change hc => ?_
  have hread : (if flip ≠ 0 then flipEndian blocksize (ofLE (slice sample.bytes blockstart blocksize))
      else ofLE (slice sample.bytes blockstart blocksize)) =
      numberAt (decide (flip ≠ 0)) (slice sample.bytes blockstart blocksize) := by
    rw [flipEndian_ofLE hlen, numberAt]
    by_cases hflip : flip ≠ 0
    · rw [if_pos hflip, decide_eq_true hflip, if_pos rfl]
    · rw [if_neg hflip, decide_eq_false hflip, if_neg Bool.false_ne_true]
  rw [hread]
  generalize hnumber : numberAt (decide (flip ≠ 0)) (slice sample.bytes blockstart blocksize) = number
  have hpos : (0 : ℤ) < 256 ^ blocksize := Int.pow_pos (by decide)
  have hnonneg := Int.emod_nonneg ((number : ℤ) + change) hpos.ne'
  have hnew : (((number : ℤ) + change) % 256 ^ blocksize).toNat < 256 ^ blocksize := by
    rw [Int.toNat_lt hnonneg, Int.natCast_pow]
    exact Int.emod_lt_of_pos _ hpos
  have hwrite : toLE blocksize (if flip ≠ 0 then
        flipEndian blocksize (((number : ℤ) + change) % 256 ^ blocksize).toNat
      else (((number : ℤ) + change) % 256 ^ blocksize).toNat) =
      bytesOf (decide (flip ≠ 0)) blocksize (((number : ℤ) + change) % 256 ^ blocksize).toNat := by
    by_cases hflip : flip ≠ 0
    · rw [if_pos hflip, decide_eq_true hflip, toLE_flipEndian hnew]
    · rw [if_neg hflip, decide_eq_false hflip, bytesOf, if_neg Bool.false_ne_true]
  rw [hwrite]
  have hdata := length_bytesOf (decide (flip ≠ 0)) blocksize
    (((number : ℤ) + change) % 256 ^ blocksize).toNat
  have hfits : blockstart + (bytesOf (decide (flip ≠ 0)) blocksize
      (((number : ℤ) + change) % 256 ^ blocksize).toNat).length ≤ sample.size := by
    rw [hdata]
    exact hinside
  rw [memcpy_paste hfits hdata.symm, access_some, pure_bind, setBytes_paste hfits, pure_bind]
  refine Spec.pure (Or.inr ⟨_, _, hfits, ⟨blocksize, decide (flip ≠ 0), change, hk, hc.1, hc.2,
    hdata, ?_⟩, rfl⟩)
  rw [numberAt_bytesOf hnew, hnumber, Int.toNat_of_nonneg hnonneg]

/-- **`ArithmeticMutator`** draws one of the three widths, and whether the bytes are
swapped, and writes back the number that it has read, changed by a small one.  -/
theorem spec_arithmeticMutate :
    Spec (arithmeticMutate sample) (WritesBlock sample (NumberChanged sample)) (· = .noDraws) := by
  rw [arithmeticMutate]
  refine (spec_randBetween le_rfl (by decide) (by decide) (by decide)).bind fun flip _ => ?_
  refine (spec_randBetween le_rfl (by decide) (by decide) (by decide)).bind fun size _ => ?_
  split
  · exact spec_mutateArithmeticValue sample hsize (by decide) flip
  split
  · exact spec_mutateArithmeticValue sample hsize (by decide) flip
  split
  · exact spec_mutateArithmeticValue sample hsize (by decide) flip
  · exact Spec.pure (Or.inl rfl)

/-- **`BlockFlipMutator`** writes a block of a length between its bounds, of one byte
repeated if it is uniform, and of new bytes otherwise.  -/
theorem spec_blockFlipMutate {minBlockSize maxBlockSize : ℤ} (hbounds : Bounds minBlockSize maxBlockSize)
    (uniform : Bool) :
    Spec (blockFlipMutate minBlockSize maxBlockSize uniform sample)
      (WritesBlock sample fun _ data => minBlockSize ≤ data.length ∧ data.length ≤ maxBlockSize ∧
        (uniform = true → ∃ c, data = List.replicate data.length c)) (· = .noDraws) := by
  have hle := hbounds.le
  obtain ⟨hmin, hmin1, hminlt⟩ := hbounds.toSize_eq ⟨le_rfl, hle⟩
  obtain ⟨hmaxb, -, hmaxlt⟩ := hbounds.toSize_eq ⟨hle, le_rfl⟩
  rw [blockFlipMutate, hmin, hmaxb]
  refine (spec_getRandBlock hmin1 (fun _ => by omega) hmaxlt hsize).bind fun block hblock => ?_
  rcases block with _ | ⟨blockpos, blocksize⟩
  · exact Spec.pure (Or.inl rfl)
  have hlow : minBlockSize.toNat ≤ blocksize := hblock.min_le
  have hhigh : blocksize ≤ maxBlockSize.toNat := hblock.le_max
  have hinside : blockpos + blocksize ≤ sample.bytes.length := hblock.inside
  dsimp only
  cases uniform with
  | true =>
      rw [if_pos rfl]
      refine spec_randByte.bind fun c _ => ?_
      have hfits : blockpos + (List.replicate blocksize (UInt8.ofNat c.toNat)).length ≤ sample.size := by
        rw [List.length_replicate]
        exact hinside
      rw [storeSame_of hinside, pure_bind, setBytes_paste hfits, pure_bind]
      refine Spec.pure (Or.inr ⟨_, _, hfits, ⟨?_, ?_, fun _ => ⟨UInt8.ofNat c.toNat, ?_⟩⟩, rfl⟩)
      · rw [List.length_replicate]
        omega
      · rw [List.length_replicate]
        omega
      · rw [List.length_replicate]
  | false =>
      rw [if_neg Bool.false_ne_true, storeRandom_of hinside, bind_assoc]
      refine (spec_randBytes blocksize).bind fun ins hins => ?_
      have hfits : blockpos + ins.length ≤ sample.size := by
        rw [hins]
        exact hinside
      rw [pure_bind, setBytes_paste hfits, pure_bind]
      exact Spec.pure (Or.inr ⟨_, _, hfits, ⟨by omega, by omega, fun h => absurd h Bool.false_ne_true⟩, rfl⟩)

/-- A value that is not empty is written where the sample has room for it, and if it has
not, or there are no values, the sample is left alone.  -/
theorem spec_interestingValueMutate {interestingValues : List Sample}
    (hlt : interestingValues.length < 2 ^ 31) (hpos : ∀ value ∈ interestingValues, 0 < value.size) :
    Spec (interestingValueMutate interestingValues sample)
      (WritesBlock sample fun _ data => ∃ value ∈ interestingValues, data = value.bytes)
      (· = .noDraws) := by
  rw [interestingValueMutate]
  split
  · exact Spec.pure (Or.inl rfl)
  rename_i hne
  have hlength : 0 < interestingValues.length := List.length_pos_iff.2 hne
  rw [toInt_of_lt hlt]
  refine (spec_randBetween le_rfl (by omega) (by omega) (by omega)).bind fun i hi => ?_
  have hilt : i.toNat < interestingValues.length := by omega
  rw [toSize_of_nonneg (by omega) (by omega), List.getElem?_eq_getElem hilt, access_some, pure_bind]
  have hmem := List.getElem_mem hilt
  generalize interestingValues[i.toNat] = value at hmem
  have hvalue := hpos value hmem
  by_cases hsmall : sample.size < value.size
  -- the block is larger than the sample, so there is none
  · have hnone : getRandBlock sample.size value.size value.size = pure none := by
      rw [getRandBlock, if_pos hsmall]
      split <;> rfl
    rw [hnone, pure_bind]
    exact Spec.pure (Or.inl rfl)
  refine (spec_getRandBlock hvalue (fun _ => le_rfl) (by omega) hsize).bind fun block hblock => ?_
  rcases block with _ | ⟨blockstart, blocksize⟩
  · exact Spec.pure (Or.inl rfl)
  have hblocksize : blocksize = value.size := le_antisymm hblock.le_max hblock.min_le
  have hinside : blockstart + blocksize ≤ sample.size := hblock.inside
  have hfits : blockstart + value.bytes.length ≤ sample.size := by
    rw [hblocksize] at hinside
    exact hinside
  dsimp only
  rw [memcpy_paste hfits (rfl : value.size = value.bytes.length), access_some, pure_bind,
    setBytes_paste hfits, pure_bind]
  exact Spec.pure (Or.inr ⟨_, _, hfits, ⟨value, hmem, rfl⟩, rfl⟩)

end Results

end Mutators
end Jackalope
