/-
# Samples

`Sample` of `sample.h` without its file name: the bytes of a test case.  The size
of a sample is a `size_t`, so it is below `2^64`; the field says so once, and no
later statement has to assume it.
-/

import Jackalope.Coverage
import Mathlib.Algebra.Order.Group.Nat

namespace Jackalope

/-- A test case. -/
structure Sample where
  bytes : Bytes
  size_lt : bytes.length < 2 ^ 64
  deriving DecidableEq

namespace Sample

/-- `sample->size`. -/
def size (s : Sample) : ℕ := s.bytes.length

/-- The default constructor. -/
def empty : Sample := ⟨[], Nat.two_pow_pos 64⟩

instance : Inhabited Sample := ⟨empty⟩

/-- `Sample::Init(data, size)`.  A buffer holds no more bytes than a `size_t`
counts, so nothing is cut. -/
def init (data : Bytes) : Sample :=
  ⟨data.take (2 ^ 64 - 1), by rw [List.length_take]; omega⟩

/-- A sample has the bytes that it was made from, if its size can count them.  -/
theorem init_bytes {data : Bytes} (h : data.length < 2 ^ 64) : (init data).bytes = data :=
  List.take_of_length_le (by omega)

/-- Making a sample from its own bytes changes nothing.  -/
@[simp] theorem init_self (s : Sample) : init s.bytes = s := by
  cases s with
  | mk bytes h => simp only [init, mk.injEq]; exact List.take_of_length_le (by omega)

/-- `Sample::Trim`. -/
def trim (s : Sample) (newSize : ℕ) : Sample :=
  if newSize > s.size then s else ⟨s.bytes.take newSize, by
    have := s.size_lt
    rw [List.length_take]
    omega⟩

/-- Trimming makes a sample as small as is asked for, and never larger.  -/
theorem size_trim (s : Sample) (newSize : ℕ) : (s.trim newSize).size = min newSize s.size := by
  unfold trim
  split
  · omega
  · simp [size]

/-- `Sample::Crop`, into a sample that is empty. -/
def crop (s : Sample) (cropFrom cropTo : ℕ) : Sample :=
  if cropFrom ≥ cropTo then empty
  else if cropFrom > s.size then empty
  else
    let cropTo := if cropTo > s.size then s.size else cropTo
    init ((s.bytes.drop cropFrom).take (cropTo - cropFrom))

/-- `Sample::Resize`. -/
def resize (s : Sample) (newSize : ℕ) : Sample :=
  if newSize = s.size then s
  else if newSize < s.size then s.trim newSize
  else init (s.bytes ++ List.replicate (newSize - s.size) 0)

/-- A sample that is made larger gets null bytes behind those that it has.  -/
theorem bytes_resize {s : Sample} {newSize : ℕ} (h : s.size < newSize) (hlt : newSize < 2 ^ 64) :
    (s.resize newSize).bytes = s.bytes ++ List.replicate (newSize - s.size) 0 := by
  rw [resize, if_neg (by omega), if_neg (by omega), init_bytes]
  rw [List.length_append, List.length_replicate]
  unfold size at h ⊢
  omega

end Sample

/-- `Range`: the positions of a sample from the first on and before the second. -/
structure Range where
  rangeFrom : ℕ
  rangeTo : ℕ
  deriving DecidableEq

end Jackalope
