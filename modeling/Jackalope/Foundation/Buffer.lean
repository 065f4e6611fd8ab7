/-
# Blocks of memory

What `malloc` hands out, and what C code then does to it: a block is a list with one entry
for each byte, and `none` is a byte that nothing has been written to.  The operations give
`none` when they leave a block, so code that runs has stayed in its blocks, and
`contents` does so when a byte was never written.

Code that fills a block from the front goes through the blocks `written xs k`: the bytes
`xs`, and room for `k` more.  Each operation has one rule for them, and a block that has no
room left is what was written to it (`written_full`).
-/

import Mathlib.Data.List.Basic
import Mathlib.Algebra.Order.Group.Nat

namespace Jackalope
namespace Foundation

/-- A block of memory. -/
abbrev Buffer (β : Type*) := List (Option β)

namespace Buffer

variable {β : Type*}

/-- A block that holds these bytes. -/
def of (xs : List β) : Buffer β := xs.map some

/-- `malloc`. -/
def malloc (size : ℕ) : Buffer β := List.replicate size none

/-- `realloc`: what fits is kept. -/
def realloc (block : Buffer β) (size : ℕ) : Buffer β :=
  block.take size ++ malloc (size - block.length)

/-- `block[pos] = c`. -/
def store (block : Buffer β) (pos : ℕ) (c : β) : Option (Buffer β) :=
  if pos < block.length then some (block.set pos (some c)) else none

/-- `memcpy(dst + dstPos, src + srcPos, n)`, for blocks that do not overlap. -/
def memcpy (dst : Buffer β) (dstPos : ℕ) (src : Buffer β) (srcPos n : ℕ) : Option (Buffer β) :=
  if dstPos + n ≤ dst.length ∧ srcPos + n ≤ src.length then
    some (dst.take dstPos ++ (src.drop srcPos).take n ++ dst.drop (dstPos + n))
  else none

/-- What a block holds, once every byte of it was written. -/
def contents : Buffer β → Option (List β)
  | [] => some []
  | c :: block => do
      let c ← c
      let xs ← contents block
      some (c :: xs)

/-- Read `n` bytes of a block. -/
def load (block : Buffer β) (pos n : ℕ) : Option (List β) :=
  if pos + n ≤ block.length then contents ((block.drop pos).take n) else none

/-- The bytes of a list from a position on. -/
def slice (xs : List β) (pos n : ℕ) : List β := (xs.drop pos).take n

/-- A block of which the front was written, with room for more. -/
def written (xs : List β) (room : ℕ) : Buffer β := of xs ++ malloc room

/-- A buffer that was filled from a list has its length.  -/
@[simp] theorem length_of (xs : List β) : (of xs).length = xs.length := List.length_map _

/-- A block has the size that was asked for, before anything is written to it.  -/
@[simp] theorem length_malloc (size : ℕ) : (malloc size : Buffer β).length = size :=
  List.length_replicate

/-- What was written, and the room that is left behind it.  -/
@[simp] theorem length_written (xs : List β) (room : ℕ) :
    (written xs room).length = xs.length + room := by
  rw [written, List.length_append, length_of, length_malloc]

/-- Filling a buffer from two lists, one behind the other, fills it from both.  -/
theorem of_append (xs ys : List β) : of (xs ++ ys) = of xs ++ of ys := List.map_append

/-- The beginning of a filled buffer is filled from the beginning of the list.  -/
theorem of_take (xs : List β) (n : ℕ) : of (xs.take n) = (of xs).take n := List.map_take

/-- The rest of a filled buffer is filled from the rest of the list.  -/
theorem of_drop (xs : List β) (n : ℕ) : of (xs.drop n) = (of xs).drop n := List.map_drop

/-- A part of a filled buffer is filled from the same part of the list.  -/
theorem of_slice (xs : List β) (pos n : ℕ) : of (slice xs pos n) = ((of xs).drop pos).take n := by
  rw [slice, of_take, of_drop]

/-- A part that is within the list has the length that was asked for.  -/
theorem length_slice {xs : List β} {pos n : ℕ} (h : pos + n ≤ xs.length) :
    (slice xs pos n).length = n := by
  rw [slice, List.length_take, List.length_drop]
  omega

/-- From a position on, as far as the list goes. -/
theorem slice_to_end {xs : List β} {pos n : ℕ} (h : xs.length ≤ pos + n) :
    slice xs pos n = xs.drop pos := by
  rw [slice, List.take_of_length_le]
  rw [List.length_drop]
  omega

/-- A part from the beginning.  -/
@[simp] theorem slice_zero (xs : List β) (n : ℕ) : slice xs 0 n = xs.take n := rfl

/-- A buffer that was filled from a list can be read, and holds the list: no byte of it is
left unwritten.  -/
@[simp] theorem contents_of (xs : List β) : contents (of xs) = some xs := by
  induction xs with
  | nil => rfl
  | cons x xs ih =>
      show ((some x).bind fun c => (contents (of xs)).bind fun xs => some (c :: xs)) = _
      rw [ih]
      rfl

/-- What is read of a block that was written all over. -/
theorem load_of {xs : List β} {pos n : ℕ} (h : pos + n ≤ xs.length) :
    load (of xs) pos n = some (slice xs pos n) := by
  rw [load, if_pos (by rwa [length_of]), ← of_slice, contents_of]

/-- A block that has no room left is what was written to it. -/
theorem written_full {xs : List β} {room : ℕ} (h : room = 0) : written xs room = of xs := by
  rw [written, h, malloc, List.replicate_zero, List.append_nil]

/-- A new block is one to which nothing was written yet, so what is known of blocks that are
being written holds of it.  -/
theorem malloc_eq_written (size : ℕ) : (malloc size : Buffer β) = written [] size := rfl

/-- The rest of a new block is a new block, as nothing was written to it.  -/
theorem drop_malloc (size n : ℕ) : (malloc size : Buffer β).drop n = malloc (size - n) :=
  List.drop_replicate

/-- Making a block larger leaves room behind what it held. -/
theorem realloc_of_le {xs : List β} {size : ℕ} (h : xs.length ≤ size) :
    realloc (of xs) size = written xs (size - xs.length) := by
  rw [realloc, List.take_of_length_le (by rwa [length_of]), length_of, written]

/-- Making a block smaller cuts what it held. -/
theorem realloc_of_ge {xs : List β} {size : ℕ} (h : size ≤ xs.length) :
    realloc (of xs) size = of (xs.take size) := by
  rw [realloc, length_of, Nat.sub_eq_zero_of_le h, malloc, List.replicate_zero, List.append_nil,
    of_take]

/-- One more byte is written behind the others. -/
theorem store_written {xs : List β} {pos room : ℕ} (hpos : pos = xs.length) (hroom : 0 < room) (c : β) :
    store (written xs room) pos c = some (written (xs ++ [c]) (room - 1)) := by
  obtain ⟨room, rfl⟩ : ∃ room', room = room' + 1 := ⟨room - 1, by omega⟩
  rw [store, if_pos (by rw [length_written]; omega), written, hpos,
    List.set_append_right _ _ (length_of xs).le, length_of, Nat.sub_self, malloc,
    List.replicate_succ, List.set_cons_zero, written, of_append, List.append_assoc]
  rfl

/-- A part of another block is copied behind what was written. -/
theorem memcpy_written {xs src : List β} {dstPos srcPos n room : ℕ} (hpos : dstPos = xs.length)
    (hroom : n ≤ room) (hsrc : srcPos + n ≤ src.length) :
    memcpy (written xs room) dstPos (of src) srcPos n =
      some (written (xs ++ slice src srcPos n) (room - n)) := by
  rw [memcpy, if_pos ⟨by rw [length_written]; omega, by rwa [length_of]⟩, written, hpos,
    List.take_left' (length_of xs), ← of_slice, ← of_append, ← List.drop_drop,
    List.drop_left' (length_of xs), drop_malloc, written]

/-- A part of another block is copied into a new one. -/
theorem memcpy_malloc {src : List β} {srcPos n size : ℕ} (hroom : n ≤ size)
    (hsrc : srcPos + n ≤ src.length) :
    memcpy (malloc size) 0 (of src) srcPos n = some (written (slice src srcPos n) (size - n)) := by
  rw [malloc_eq_written, memcpy_written List.length_nil.symm hroom hsrc, List.nil_append]

/-- A part of one block is copied over a part of another. -/
theorem memcpy_of {dst src : List β} {dstPos srcPos n : ℕ} (hdst : dstPos + n ≤ dst.length)
    (hsrc : srcPos + n ≤ src.length) :
    memcpy (of dst) dstPos (of src) srcPos n =
      some (of (dst.take dstPos ++ slice src srcPos n ++ dst.drop (dstPos + n))) := by
  rw [memcpy, if_pos ⟨by rwa [length_of], by rwa [length_of]⟩, ← of_slice, ← of_take, ← of_drop,
    ← of_append, ← of_append]

end Buffer

end Foundation
end Jackalope
