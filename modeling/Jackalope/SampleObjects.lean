/-
# The buffers of samples

`Sample` of `sample.cpp` (lines 28-57 and 115-168) as an object: a pointer to a block of
memory, a size and a file name, which the operations change one after the other.  `none` is
a null pointer, and an operation is `none` when it reads or writes outside a block; copying
no bytes is allowed with any pointer.  Everything else in this development speaks of samples
as byte strings (`Sample.lean`); `Represents` is what that rests on.

Two operations leave an object whose size is not that of its buffer.  `Clear` does not touch
the size, so it is right only for an object that is empty; and `Crop` begins by clearing its
result, so the two ways in which it returns early leave the old size behind, and an object
that is cropped into itself has no bytes left to copy.  `runs_represent_iff` says for every
sequence of operations on any number of objects that these are, with the assignment of an
object to itself and sizes from `2^64` on, the only ways in which one goes wrong.
-/

import Jackalope.Foundation.Buffer
import Jackalope.Sample
import Mathlib.Logic.Function.Basic

namespace Jackalope
namespace SampleObjects

open Foundation Foundation.Buffer

/-! ### The operations -/

/-- `Sample`. -/
structure SampleObject where
  bytes : Option (Buffer UInt8)
  size : ℕ
  filename : Bytes

/-- `memcpy` to a block from what a pointer points to; no bytes are copied from anywhere. -/
def copyFrom (dst : Buffer UInt8) (dstPos : ℕ) (src : Option (Buffer UInt8)) (srcPos n : ℕ) :
    Option (Buffer UInt8) :=
  if n = 0 then some dst else src.bind fun src => memcpy dst dstPos src srcPos n

/-- `realloc` of what a pointer points to. -/
def reallocate (bytes : Option (Buffer UInt8)) (size : ℕ) : Buffer UInt8 := realloc (bytes.getD []) size

namespace SampleObject

/-- The default constructor. -/
def construct : SampleObject := ⟨none, 0, []⟩

/-- `Clear`. -/
def clear (o : SampleObject) : SampleObject := { o with bytes := none, filename := [] }

/-- `Init(data, size)`, `data` being a position of a block. -/
def init (o : SampleObject) (data : Option (Buffer UInt8)) (pos size : ℕ) : Option SampleObject := do
  let block ← copyFrom (malloc size) 0 data pos size
  some { o with bytes := some block, size := size }

/-- `Init(size)`. -/
def initZero (o : SampleObject) (size : ℕ) : SampleObject :=
  { o with bytes := some (of (List.replicate size 0)), size := size }

/-- `Append(data, size)`. -/
def append (o : SampleObject) (data : Bytes) : Option SampleObject := do
  let oldsize := o.size
  let size := (o.size + data.length) % 2 ^ 64
  let block ← copyFrom (reallocate o.bytes size) oldsize (some (of data)) 0 data.length
  some { o with bytes := some block, size := size }

/-- `Trim`. -/
def trim (o : SampleObject) (newSize : ℕ) : SampleObject :=
  if newSize > o.size then o
  else if newSize = 0 then { o with bytes := none, size := newSize }
  else { o with bytes := some (reallocate o.bytes newSize), size := newSize }

/-- `Resize`. -/
def resize (o : SampleObject) (newSize : ℕ) : Option SampleObject :=
  if newSize = o.size then some o
  else if newSize < o.size then some (o.trim newSize)
  else do
    let zeros := of (List.replicate (newSize - o.size) 0)
    let block ← copyFrom (reallocate o.bytes newSize) o.size (some zeros) 0 (newSize - o.size)
    some { o with bytes := some block, size := newSize }

/-- The copy constructor. -/
def copyConstruct (input : SampleObject) : Option SampleObject := do
  let block ← copyFrom (malloc input.size) 0 input.bytes 0 input.size
  some ⟨some block, input.size, input.filename⟩

end SampleObject

/-- Data of some size that is passed to an operation. -/
abbrev Data := { data : Bytes // data.length < 2 ^ 64 }

/-- The operations, with the objects that they are applied to. -/
inductive Op (ι : Type)
  | construct (i : ι)
  | copyConstruct (i j : ι)
  | assign (i j : ι)
  | init (i : ι) (data : Data)
  | initZero (i : ι) (size : UInt64)
  | append (i : ι) (data : Data)
  | trim (i : ι) (newSize : UInt64)
  | resize (i : ι) (newSize : UInt64)
  | clear (i : ι)
  | crop (i : ι) (cropFrom cropTo : UInt64) (out : ι)

section System

variable {ι : Type} [DecidableEq ι]

/-- `objects[i].Crop(from, to, &objects[out])`. -/
def crop (objects : ι → SampleObject) (i : ι) (cropFrom cropTo : ℕ) (out : ι) :
    Option (ι → SampleObject) :=
  -- the result is cleared first, also if it is the object that is cropped
  let objects := Function.update objects out (objects out).clear
  let this := objects i
  if cropFrom ≥ cropTo then some objects
  else if cropFrom > this.size then some objects
  else do
    let cropTo := if cropTo > this.size then this.size else cropTo
    let o ← (objects out).init this.bytes cropFrom (cropTo - cropFrom)
    some (Function.update objects out o)

/-- `objects[i] = objects[j]`. -/
def assign (objects : ι → SampleObject) (i j : ι) : Option (ι → SampleObject) := do
  let size := (objects j).size
  -- the new block is in place when the other object's is read: an object that is assigned to
  -- itself copies from the new block
  let objects := Function.update objects i { objects i with bytes := some (malloc size), size := size }
  let block ← copyFrom (malloc size) 0 (objects j).bytes 0 size
  some (Function.update objects i ⟨some block, size, (objects j).filename⟩)

/-- An operation is applied; `none` is a byte read or written outside a block. -/
def step (objects : ι → SampleObject) : Op ι → Option (ι → SampleObject)
  | .construct i => some (Function.update objects i SampleObject.construct)
  | .copyConstruct i j => (objects j).copyConstruct.map (Function.update objects i)
  | .assign i j => assign objects i j
  | .init i data =>
      ((objects i).init (some (of data.1)) 0 data.1.length).map (Function.update objects i)
  | .initZero i size => some (Function.update objects i ((objects i).initZero size.toNat))
  | .append i data => ((objects i).append data.1).map (Function.update objects i)
  | .trim i newSize => some (Function.update objects i ((objects i).trim newSize.toNat))
  | .resize i newSize => ((objects i).resize newSize.toNat).map (Function.update objects i)
  | .clear i => some (Function.update objects i (objects i).clear)
  | .crop i cropFrom cropTo out => crop objects i cropFrom.toNat cropTo.toNat out

/-- A sequence of operations is applied. -/
def runs (objects : ι → SampleObject) (ops : List (Op ι)) : Option (ι → SampleObject) :=
  ops.foldlM step objects

/-! ### What the operations are for -/

/-- What the objects hold after an operation. -/
def effect (contents : ι → Bytes) : Op ι → ι → Bytes
  | .construct i => Function.update contents i []
  | .copyConstruct i j => Function.update contents i (contents j)
  | .assign i j => Function.update contents i (contents j)
  | .init i data => Function.update contents i data.1
  | .initZero i size => Function.update contents i (List.replicate size.toNat 0)
  | .append i data => Function.update contents i (contents i ++ data.1)
  | .trim i newSize => Function.update contents i ((contents i).take newSize.toNat)
  | .resize i newSize => Function.update contents i
      ((contents i).take newSize.toNat ++ List.replicate (newSize.toNat - (contents i).length) 0)
  | .clear i => Function.update contents i []
  | .crop i cropFrom cropTo out => Function.update contents out
      (slice (contents i) cropFrom.toNat (min cropTo.toNat (contents i).length - cropFrom.toNat))

/-- What they hold after a sequence of operations. -/
def effects (contents : ι → Bytes) (ops : List (Op ι)) : ι → Bytes := ops.foldl effect contents

/-- **The buffer holds exactly `size` bytes**, which are these; no bytes need no buffer. -/
structure Holds (o : SampleObject) (content : Bytes) : Prop where
  size_eq : o.size = content.length
  bytes_eq : o.bytes = some (of content) ∨ (o.bytes = none ∧ content = [])

/-- Every object holds what it should. -/
def Represents (objects : ι → SampleObject) (contents : ι → Bytes) : Prop :=
  ∀ i, Holds (objects i) (contents i)

/-- The operation is not one of those that go wrong: what is cleared is empty; what is cropped
into, too, if there is nothing to be cropped; what is cropped into itself, or assigned to
itself, has nothing that would be copied; and sizes are below `2^64`. -/
def Meets (contents : ι → Bytes) : Op ι → Prop
  | .assign i j => i = j → contents i = []
  | .append i data => (contents i).length + data.1.length < 2 ^ 64
  | .clear i => contents i = []
  | .crop i cropFrom cropTo out =>
      if cropFrom ≥ cropTo ∨ cropFrom.toNat > (contents i).length then contents out = []
      else i = out → cropFrom.toNat = (contents i).length
  | _ => True

/-! ### One object -/

section Object

variable {o : SampleObject} {content : Bytes}

/-- A new object holds no bytes.  -/
theorem holds_construct : Holds SampleObject.construct [] := ⟨rfl, Or.inr ⟨rfl, rfl⟩⟩

/-- An object whose buffer was written. -/
theorem holds_of {size : ℕ} {filename : Bytes} (h : size = content.length) :
    Holds ⟨some (of content), size, filename⟩ content := ⟨h, Or.inl rfl⟩

/-- `Clear` leaves the size. -/
theorem holds_clear_iff (h : Holds o content) : Holds o.clear [] ↔ content = [] := by
  constructor
  · intro hclear
    have hsize : o.size = 0 := hclear.size_eq
    exact List.length_eq_zero_iff.1 (h.size_eq.symm.trans hsize)
  · rintro rfl
    exact ⟨h.size_eq, Or.inr ⟨rfl, rfl⟩⟩

/-- A new block gets a part of a block of bytes. -/
theorem copyFrom_malloc {src : Bytes} {pos n : ℕ} (hle : pos + n ≤ src.length) :
    copyFrom (malloc n) 0 (some (of src)) pos n = some (of (slice src pos n)) := by
  rw [copyFrom]
  split
  · rename_i hzero
    rw [hzero]
    rfl
  · show memcpy (malloc n) 0 (of src) pos n = _
    rw [memcpy_malloc le_rfl hle, written_full (Nat.sub_self n)]

/-- A new block gets a part of what an object holds. -/
theorem Holds.copyFrom_malloc (h : Holds o content) {pos n : ℕ} (hle : pos + n ≤ content.length) :
    copyFrom (malloc n) 0 o.bytes pos n = some (of (slice content pos n)) := by
  rcases h.bytes_eq with hbytes | ⟨hbytes, rfl⟩
  · rw [hbytes, SampleObjects.copyFrom_malloc hle]
  · obtain rfl : n = 0 := by
      rw [List.length_nil] at hle
      omega
    rw [copyFrom, if_pos rfl]
    rfl

/-- A pointer whose block is made smaller. -/
theorem Holds.reallocate_of_ge (h : Holds o content) {n : ℕ} (hle : n ≤ content.length) :
    reallocate o.bytes n = of (content.take n) := by
  rcases h.bytes_eq with hbytes | ⟨hbytes, rfl⟩
  · rw [hbytes, reallocate, Option.getD_some, realloc_of_ge hle]
  · rw [hbytes, reallocate, Option.getD_none]
    exact realloc_of_ge hle

/-- A pointer whose block is made larger. -/
theorem Holds.reallocate_of_le (h : Holds o content) {n : ℕ} (hle : content.length ≤ n) :
    reallocate o.bytes n = written content (n - content.length) := by
  rcases h.bytes_eq with hbytes | ⟨hbytes, rfl⟩
  · rw [hbytes, reallocate, Option.getD_some, realloc_of_le hle]
  · rw [hbytes, reallocate, Option.getD_none]
    exact realloc_of_le hle

/-- Data fills the room behind what was written, exactly, so the block has no byte left that
was not written.  -/
theorem copyFrom_written {data : Bytes} {pos n room : ℕ} (hpos : pos = content.length)
    (hn : n = data.length) (hroom : room = n) :
    copyFrom (written content room) pos (some (of data)) 0 n = some (of (content ++ data)) := by
  rw [copyFrom]
  split
  · rename_i hzero
    obtain rfl := List.length_eq_zero_iff.1 (hn.symm.trans hzero)
    rw [written_full (hroom.trans hzero), List.append_nil]
  · show memcpy (written content room) pos (of data) 0 n = _
    rw [memcpy_written hpos hroom.ge (by omega), written_full (by omega), slice_zero,
      List.take_of_length_le hn.ge]

/-- `Init` takes a part of what an object holds. -/
theorem init_eq {src : SampleObject} {bytes : Bytes} (h : Holds src bytes) {pos n : ℕ}
    (hle : pos + n ≤ bytes.length) :
    ∃ o', o.init src.bytes pos n = some o' ∧ Holds o' (slice bytes pos n) := by
  refine ⟨⟨some (of (slice bytes pos n)), n, o.filename⟩, ?_, holds_of (length_slice hle).symm⟩
  rw [SampleObject.init, h.copyFrom_malloc hle]
  rfl

/-- `Init` takes data from elsewhere. -/
theorem init_data (data : Bytes) :
    ∃ o', o.init (some (of data)) 0 data.length = some o' ∧ Holds o' data := by
  refine ⟨⟨some (of data), data.length, o.filename⟩, ?_, holds_of rfl⟩
  rw [SampleObject.init, copyFrom_malloc (by omega), slice_zero, List.take_length]
  rfl

/-- An object that is initialized to a size holds that many null bytes.  -/
theorem holds_initZero (size : ℕ) : Holds (o.initZero size) (List.replicate size 0) :=
  holds_of (List.length_replicate).symm

/-- A copy holds what the object holds, in a block of its own.  -/
theorem copyConstruct_eq (h : Holds o content) :
    ∃ o', o.copyConstruct = some o' ∧ Holds o' content := by
  refine ⟨⟨some (of content), o.size, o.filename⟩, ?_, holds_of h.size_eq⟩
  rw [SampleObject.copyConstruct, h.copyFrom_malloc (by rw [h.size_eq]; omega), slice_zero, h.size_eq,
    List.take_length]
  rfl

/-- `Append` is right unless the size overflows: the bytes are put behind those that are
there, in a block that is large enough for both.  -/
theorem append_iff (h : Holds o content) (data : Data) :
    (∃ o', o.append data.1 = some o' ∧ Holds o' (content ++ data.1)) ↔
      content.length + data.1.length < 2 ^ 64 := by
  rw [SampleObject.append, h.size_eq]
  constructor
  · rintro ⟨o', happend, hholds⟩
    obtain ⟨block, -, heq⟩ := Option.bind_eq_some_iff.1 happend
    have hsize : o'.size = (content.length + data.1.length) % 2 ^ 64 := by
      rw [← Option.some.inj heq]
    have hsize' := hholds.size_eq
    rw [List.length_append] at hsize'
    rw [← hsize', hsize]
    exact Nat.mod_lt _ (Nat.two_pow_pos 64)
  · intro hlt
    refine ⟨⟨some (of (content ++ data.1)), content.length + data.1.length, o.filename⟩, ?_,
      holds_of List.length_append.symm⟩
    rw [Nat.mod_eq_of_lt hlt, h.reallocate_of_le (by omega), copyFrom_written rfl rfl (by omega)]
    rfl

/-- A trimmed object holds the beginning of what it held; its block stays as it is.  -/
theorem holds_trim (h : Holds o content) (newSize : ℕ) : Holds (o.trim newSize) (content.take newSize) := by
  rw [SampleObject.trim]
  split
  · rename_i hover
    rw [List.take_of_length_le (by rw [← h.size_eq]; omega)]
    exact h
  rename_i hle
  rw [h.size_eq] at hle
  split
  · rename_i hzero
    exact ⟨by rw [hzero]; rfl, Or.inr ⟨rfl, by rw [hzero]; rfl⟩⟩
  · rw [h.reallocate_of_ge (Nat.not_lt.1 hle)]
    exact holds_of (by rw [List.length_take]; omega)

/-- `Resize` keeps the common prefix and fills up with zeros.  It is right for every size,
also for 0 and for the size that the object has.  -/
theorem resize_eq (h : Holds o content) (newSize : ℕ) :
    ∃ o', o.resize newSize = some o' ∧
      Holds o' (content.take newSize ++ List.replicate (newSize - content.length) 0) := by
  rw [SampleObject.resize, h.size_eq]
  split
  · rename_i heq
    refine ⟨o, rfl, ?_⟩
    rw [heq, List.take_length, Nat.sub_self, List.replicate_zero, List.append_nil]
    exact h
  split
  · refine ⟨o.trim newSize, rfl, ?_⟩
    rw [Nat.sub_eq_zero_of_le (by omega), List.replicate_zero, List.append_nil]
    exact holds_trim h newSize
  · refine ⟨⟨some (of (content ++ List.replicate (newSize - content.length) 0)), newSize, o.filename⟩,
      ?_, ?_⟩
    · dsimp only
      rw [h.reallocate_of_le (by omega), copyFrom_written rfl List.length_replicate.symm rfl]
      rfl
    · rw [List.take_of_length_le (by omega)]
      exact holds_of (by rw [List.length_append, List.length_replicate]; omega)

end Object

/-! ### Any number of objects -/

section Objects

variable {objects : ι → SampleObject} {contents : ι → Bytes}

/-- One object is replaced by one that holds what it should; the others are not touched, and
hold what they held.  -/
theorem Represents.update (h : Represents objects contents) (i : ι) {o : SampleObject} {content : Bytes}
    (ho : Holds o content) :
    Represents (Function.update objects i o) (Function.update contents i content) := by
  intro k
  by_cases hk : k = i
  · rw [hk, Function.update_self, Function.update_self]
    exact ho
  · rw [Function.update_of_ne hk, Function.update_of_ne hk]
    exact h k

/-- An operation that changes one object is right if it is right for this object. -/
theorem represents_update_iff (h : Represents objects contents) (i : ι) {o : SampleObject}
    {content : Bytes} :
    Represents (Function.update objects i o) (Function.update contents i content) ↔ Holds o content := by
  refine ⟨fun hr => ?_, h.update i⟩
  have := hr i
  rwa [Function.update_self, Function.update_self] at this

/-- **An operation on one object does what it should exactly if its result holds what it
should**: the others are not touched, so nothing else can go wrong.  -/
theorem exists_update_iff (h : Represents objects contents) (i : ι) (result : Option SampleObject)
    (content : Bytes) :
    (∃ objects', result.map (Function.update objects i) = some objects' ∧
        Represents objects' (Function.update contents i content)) ↔
      ∃ o, result = some o ∧ Holds o content := by
  constructor
  · rintro ⟨objects', hmap, hr⟩
    obtain ⟨o, ho, rfl⟩ := Option.map_eq_some_iff.1 hmap
    exact ⟨o, ho, (represents_update_iff h i).1 hr⟩
  · rintro ⟨o, rfl, ho⟩
    exact ⟨_, rfl, h.update i ho⟩

/-- The same for an operation that always has a result.  -/
theorem exists_updated_iff (h : Represents objects contents) (i : ι) {o : SampleObject}
    {content : Bytes} :
    (∃ objects', some (Function.update objects i o) = some objects' ∧
        Represents objects' (Function.update contents i content)) ↔ Holds o content := by
  refine (exists_update_iff h i (some o) content).trans ⟨?_, fun ho => ⟨o, rfl, ho⟩⟩
  rintro ⟨o', heq, ho⟩
  rwa [Option.some.inj heq]

/-- A block that is copied onto itself stays as it is, byte for byte, as far as the source
goes.  -/
theorem copyFrom_self (block : Buffer UInt8) :
    copyFrom block 0 (some block) 0 block.length = some block := by
  rw [copyFrom]
  split
  · rfl
  · show memcpy block 0 block 0 block.length = some block
    rw [memcpy, if_pos ⟨(Nat.zero_add _).le, (Nat.zero_add _).le⟩, List.take_zero, List.drop_zero,
      List.take_length, List.nil_append, Nat.zero_add, List.drop_length, List.append_nil]

/-- A new block holds something only if there is nothing to hold: its bytes have not been
written.  -/
theorem holds_malloc_iff {size : ℕ} {filename content : Bytes} (h : size = content.length) :
    Holds ⟨some (malloc size), size, filename⟩ content ↔ content = [] := by
  constructor
  · intro hholds
    rcases hholds.bytes_eq with hbytes | ⟨hbytes, -⟩
    · rcases content with _ | ⟨c, content⟩
      · rfl
      · rw [h] at hbytes
        cases hbytes
    · cases hbytes
  · rintro rfl
    obtain rfl : size = 0 := h
    exact ⟨rfl, Or.inl rfl⟩

/-- Assignment is right unless an object that is not empty is assigned to itself: the bytes
are freed before they are copied.  -/
theorem assign_iff (h : Represents objects contents) (i j : ι) :
    (∃ objects', assign objects i j = some objects' ∧
        Represents objects' (Function.update contents i (contents j))) ↔
      (i = j → contents i = []) := by
  have hsize := (h j).size_eq
  rw [assign]
  dsimp only
  by_cases hij : i = j
  · subst hij
    have hself := copyFrom_self (malloc (objects i).size)
    rw [length_malloc] at hself
    rw [Function.update_self, hself]
    show (∃ objects', some _ = some objects' ∧ _) ↔ _
    rw [Function.update_idem, exists_updated_iff h, holds_malloc_iff hsize]
    exact ⟨fun hempty _ => hempty, fun hempty => hempty rfl⟩
  · rw [Function.update_of_ne (Ne.symm hij), (h j).copyFrom_malloc (by omega), slice_zero, hsize,
      List.take_length]
    show (∃ objects', some _ = some objects' ∧ _) ↔ _
    rw [Function.update_idem, exists_updated_iff h]
    exact iff_of_true (holds_of rfl) fun heq => absurd heq hij

/-- Clearing an object is right if it was empty. -/
theorem cleared_iff (h : Represents objects contents) (i : ι) :
    (∃ objects', some (Function.update objects i (objects i).clear) = some objects' ∧
        Represents objects' (Function.update contents i [])) ↔ contents i = [] := by
  rw [exists_updated_iff h, holds_clear_iff (h i)]

/-- `Crop` is right unless it returns early and its result was not empty, or there is
something to be cropped from the object that is its own result. -/
theorem crop_iff (h : Represents objects contents) (i : ι) (cropFrom cropTo : ℕ) (out : ι) :
    (∃ objects', crop objects i cropFrom cropTo out = some objects' ∧
        Represents objects' (Function.update contents out
          (slice (contents i) cropFrom (min cropTo (contents i).length - cropFrom)))) ↔
      if cropFrom ≥ cropTo ∨ cropFrom > (contents i).length then contents out = []
      else i = out → cropFrom = (contents i).length := by
  -- clearing the result does not change a size
  have hsize : (Function.update objects out (objects out).clear i).size = (contents i).length := by
    by_cases hi : i = out
    · rw [hi, Function.update_self]
      exact (h out).size_eq
    · rw [Function.update_of_ne hi]
      exact (h i).size_eq
  rw [crop]
  dsimp only
  rw [hsize]
  by_cases hle : cropFrom ≥ cropTo
  · rw [if_pos hle, if_pos (Or.inl hle)]
    rw [slice, show min cropTo (contents i).length - cropFrom = 0 by omega, List.take_zero]
    exact cleared_iff h out
  by_cases hgt : cropFrom > (contents i).length
  · rw [if_neg hle, if_pos hgt, if_pos (Or.inr hgt)]
    rw [slice, List.drop_of_length_le (by omega), List.take_nil]
    exact cleared_iff h out
  rw [if_neg hle, if_neg hgt,
    if_neg (by omega : ¬ (cropFrom ≥ cropTo ∨ cropFrom > (contents i).length))]
  have hmin : (if cropTo > (contents i).length then (contents i).length else cropTo) =
      min cropTo (contents i).length := by
    split <;> omega
  rw [hmin]
  by_cases hi : i = out
  · subst hi
    rw [Function.update_self]
    by_cases hend : cropFrom = (contents i).length
    · rw [show min cropTo (contents i).length - cropFrom = 0 by omega]
      show (∃ objects', some _ = some objects' ∧ _) ↔ _
      rw [Function.update_idem, exists_updated_iff h]
      exact iff_of_true ⟨rfl, Or.inl rfl⟩ fun _ => hend
    · have hinit : (objects i).clear.init (objects i).clear.bytes cropFrom
          (min cropTo (contents i).length - cropFrom) = none := by
        rw [SampleObject.init, copyFrom, if_neg (by omega)]
        rfl
      rw [hinit]
      constructor
      · rintro ⟨objects', heq, -⟩
        cases heq
      · intro heq
        exact absurd (heq rfl) hend
  · rw [Function.update_of_ne hi]
    have hinside : cropFrom + (min cropTo (contents i).length - cropFrom) ≤ (contents i).length := by
      omega
    obtain ⟨o, hinit, ho⟩ :=
      @init_eq (Function.update objects out (objects out).clear out) _ _ (h i) _ _ hinside
    rw [hinit]
    show (∃ objects', some _ = some objects' ∧ _) ↔ _
    rw [Function.update_idem, exists_updated_iff h]
    exact iff_of_true ho fun heq => absurd heq hi

/-- **One operation**, on objects that hold what they should, has the effect that it should
exactly if the condition for its kind is met.  -/
theorem step_iff (h : Represents objects contents) (op : Op ι) :
    (∃ objects', step objects op = some objects' ∧ Represents objects' (effect contents op)) ↔
      Meets contents op := by
  cases op with
  | construct i => exact iff_of_true ⟨_, rfl, h.update i holds_construct⟩ trivial
  | copyConstruct i j =>
      exact (exists_update_iff h i _ _).trans (iff_of_true (copyConstruct_eq (h j)) trivial)
  | assign i j => exact assign_iff h i j
  | init i data => exact (exists_update_iff h i _ _).trans (iff_of_true (init_data data.1) trivial)
  | initZero i size => exact iff_of_true ⟨_, rfl, h.update i (holds_initZero size.toNat)⟩ trivial
  | append i data => exact (exists_update_iff h i _ _).trans (append_iff (h i) data)
  | trim i newSize => exact iff_of_true ⟨_, rfl, h.update i (holds_trim (h i) newSize.toNat)⟩ trivial
  | resize i newSize =>
      exact (exists_update_iff h i _ _).trans (iff_of_true (resize_eq (h i) newSize.toNat) trivial)
  | clear i => exact cleared_iff h i
  | crop i cropFrom cropTo out => exact crop_iff h i cropFrom.toNat cropTo.toNat out

/-- One operation more is run on what the others leave.  -/
theorem runs_snoc (objects : ι → SampleObject) (ops : List (Op ι)) (op : Op ι) :
    runs objects (ops ++ [op]) = (runs objects ops).bind fun objects => step objects op := by
  rw [runs, List.foldlM_append]
  refine congrArg (Option.bind _) (funext fun objects => ?_)
  show (step objects op).bind some = step objects op
  exact Option.bind_fun_some (step objects op)

/-- One operation more has its effect on what the others leave.  -/
theorem effects_snoc (contents : ι → Bytes) (ops : List (Op ι)) (op : Op ι) :
    effects contents (ops ++ [op]) = effect (effects contents ops) op := by
  rw [effects, List.foldl_append]
  rfl

/-- **A sequence of operations**: after each of them every object holds what it should, just
if none of them is one that goes wrong. -/
theorem runs_represent_iff (h : Represents objects contents) (ops : List (Op ι)) :
    (∀ pre, pre <+: ops →
        ∃ objects', runs objects pre = some objects' ∧ Represents objects' (effects contents pre)) ↔
      ∀ pre op, pre ++ [op] <+: ops → Meets (effects contents pre) op := by
  constructor
  · intro hall pre op hpre
    obtain ⟨objects', hruns, hr⟩ := hall pre ((List.prefix_append pre [op]).trans hpre)
    obtain ⟨objects'', hruns', hr'⟩ := hall (pre ++ [op]) hpre
    rw [runs_snoc, hruns] at hruns'
    rw [effects_snoc] at hr'
    exact (step_iff hr op).1 ⟨objects'', hruns', hr'⟩
  · intro hmeets pre hpre
    induction pre using List.reverseRecOn with
    | nil => exact ⟨objects, rfl, h⟩
    | append_singleton pre op ih =>
        obtain ⟨objects', hruns, hr⟩ := ih ((List.prefix_append pre [op]).trans hpre)
        obtain ⟨objects'', hstep, hr'⟩ := (step_iff hr op).2 (hmeets pre op hpre)
        refine ⟨objects'', ?_, ?_⟩
        · rw [runs_snoc, hruns]
          exact hstep
        · rw [effects_snoc]
          exact hr'

end Objects

/-- Objects that have just been constructed. -/
def start : ι → SampleObject := fun _ => SampleObject.construct

omit [DecidableEq ι] in
/-- All objects begin empty.  -/
theorem represents_start : Represents (start : ι → SampleObject) fun _ => [] := fun _ => holds_construct

/-- **Where the buffers of samples stay consistent.**  From objects that have just been
constructed, whatever the operations: the buffer of every object holds, after each of them,
exactly `size` bytes, and these are what the operations should have left there, if and only
if each operation was applied where it does not go wrong. -/
theorem samples_consistent_iff (ops : List (Op ι)) :
    (∀ pre, pre <+: ops →
        ∃ objects, runs start pre = some objects ∧ Represents objects (effects (fun _ => []) pre)) ↔
      ∀ pre op, pre ++ [op] <+: ops → Meets (effects (fun _ => []) pre) op :=
  runs_represent_iff represents_start ops

end System

/-! ### The samples of the other modules -/

/-- What `Sample.lean` says of a sample is what the operations leave in an object, so the
two descriptions of `Crop`, `Trim` and `Resize` are one.  -/
theorem effect_samples {ι : Type} [DecidableEq ι] (samples : ι → Sample) (i out : ι)
    (cropFrom cropTo newSize : UInt64) :
    effect (fun k => (samples k).bytes) (Op.crop i cropFrom cropTo out) =
        Function.update (fun k => (samples k).bytes) out
          ((samples i).crop cropFrom.toNat cropTo.toNat).bytes ∧
      effect (fun k => (samples k).bytes) (Op.trim i newSize) =
        Function.update (fun k => (samples k).bytes) i ((samples i).trim newSize.toNat).bytes ∧
      effect (fun k => (samples k).bytes) (Op.resize i newSize) =
        Function.update (fun k => (samples k).bytes) i ((samples i).resize newSize.toNat).bytes := by
  have hlen : (samples i).bytes.length = (samples i).size := rfl
  have hsize : (samples i).size < 2 ^ 64 := (samples i).size_lt
  have htrim : ∀ n, ((samples i).trim n).bytes = (samples i).bytes.take n := by
    intro n
    rw [Sample.trim]
    split
    · rw [List.take_of_length_le (by omega)]
    · rfl
  refine ⟨congrArg (Function.update _ out) ?_, congrArg (Function.update _ i) (htrim _).symm,
    congrArg (Function.update _ i) ?_⟩
  · show slice (samples i).bytes cropFrom.toNat (min cropTo.toNat (samples i).size - cropFrom.toNat) = _
    rw [Sample.crop]
    split
    · rw [slice, show min cropTo.toNat (samples i).size - cropFrom.toNat = 0 by omega, List.take_zero]
      rfl
    split
    · rw [slice, List.drop_of_length_le (by omega), List.take_nil]
      rfl
    · have hmin : (if cropTo.toNat > (samples i).size then (samples i).size else cropTo.toNat) =
          min cropTo.toNat (samples i).size := by
        split <;> omega
      dsimp only
      rw [hmin, Sample.init_bytes, slice]
      rw [List.length_take, List.length_drop]
      omega
  · show (samples i).bytes.take newSize.toNat ++
      List.replicate (newSize.toNat - (samples i).size) 0 = _
    have hnew : newSize.toNat < 2 ^ 64 := newSize.toNat_lt
    rcases Nat.lt_trichotomy newSize.toNat (samples i).size with h | h | h
    · rw [Sample.resize, if_neg h.ne, if_pos h, htrim, Nat.sub_eq_zero_of_le h.le,
        List.replicate_zero, List.append_nil]
    · rw [Sample.resize, if_pos h, h, Nat.sub_self, List.replicate_zero, List.append_nil, ← hlen,
        List.take_length]
    · rw [Sample.bytes_resize h hnew, List.take_of_length_le (by omega)]

/-- **Three operations that go wrong.** An object that is cleared with a byte in it keeps
its size, one that is cropped into although nothing is to be cropped has a size without
bytes, and one that is cropped into itself is read after its bytes were freed.  -/
theorem samples_inconsistent :
    (∃ objects, runs start [Op.init 0 ⟨[1], by decide⟩, Op.clear 0] = some objects ∧
      ∀ content, ¬ Holds (objects 0) content) ∧
    (∃ objects, runs start [Op.init 0 ⟨[1, 2], by decide⟩, Op.init 1 ⟨[9], by decide⟩,
        Op.crop 0 5 3 1] = some objects ∧ ∀ content, ¬ Holds (objects 1) content) ∧
    runs start [Op.init 0 ⟨[1, 2], by decide⟩, Op.crop 0 0 1 0] = none := by
  have hstale : ∀ o : SampleObject, o.size = 1 → o.bytes = none → ∀ content, ¬ Holds o content := by
    intro o hsize hbytes content hholds
    rcases hholds.bytes_eq with hsome | ⟨-, hnil⟩
    · rw [hbytes] at hsome
      cases hsome
    · have := hholds.size_eq
      rw [hsize, hnil] at this
      cases this
  exact ⟨⟨_, rfl, hstale _ rfl rfl⟩, ⟨_, rfl, hstale _ rfl rfl⟩, rfl⟩

end SampleObjects
end Jackalope
