/-
# State files

The server and the fuzzer save their states in binary files, written by `fwrite` and
read back by `fread` in the same order.  A file is its bytes, and reading is
consuming them from the front; a file that ends early is an error here, as nothing
is said about one.

`WriteCoverageBinary` and `ReadCoverageBinary` are functions of TinyInst, so they are
parameters: `CoverageBinary` says that reading takes exactly what writing put there.
-/

import Jackalope.Coverage
import Jackalope.Foundation.LittleEndian
import Mathlib.Data.Finset.Sort
import Mathlib.Order.Defs.LinearOrder

namespace Jackalope

open Foundation Foundation.Consumer

/-- What reads from a file. -/
abbrev FileReader (α : Type) := Consumer UInt8 Unit α

/-- `fwrite` of an unsigned integer of `k` bytes. -/
def fwrite (k n : ℕ) : Bytes := toLE k n

/-- `fread` of an unsigned integer of `k` bytes. -/
def fread (k : ℕ) : FileReader ℕ := readLE () k

/-- A number is read back from the bytes that `fwrite` has written, if they are enough for
it.  -/
theorem decodes_fread {k n : ℕ} (h : n < 256 ^ k) : Decodes (fread k) (fwrite k n) n :=
  decodes_readLE () h

/-- `fwrite` and `fread` of 64 bits, whatever they mean. -/
def fwrite64 (v : UInt64) : Bytes := fwrite 8 v.toNat

def fread64 : FileReader UInt64 := fread 8 >>= fun n => pure (UInt64.ofNat n)

/-- A number of 64 bits is read back.  -/
theorem decodes_fread64 (v : UInt64) : Decodes fread64 (fwrite64 v) v := by
  have := (decodes_fread (k := 8) v.toNat_lt).bind_pure UInt64.ofNat
  rwa [UInt64.ofNat_toNat] at this

/-- `fwrite` and `fread` of 32 bits. -/
def fwrite32 (v : UInt32) : Bytes := fwrite 4 v.toNat

def fread32 : FileReader UInt32 := fread 4 >>= fun n => pure (UInt32.ofNat n)

/-- So is one of 32 bits.  -/
theorem decodes_fread32 (v : UInt32) : Decodes fread32 (fwrite32 v) v := by
  have := (decodes_fread (k := 4) v.toNat_lt).bind_pure UInt32.ofNat
  rwa [UInt32.ofNat_toNat] at this

/-- `WriteCoverageBinary` of a coverage, and `ReadCoverageBinary` into an empty one. -/
class CoverageBinary where
  writeCoverageBinary : Coverage → Bytes
  readCoverageBinary : FileReader Coverage
  decodes_coverage : ∀ coverage,
    Decodes readCoverageBinary (writeCoverageBinary coverage) coverage

export CoverageBinary (writeCoverageBinary readCoverageBinary decodes_coverage)

/-! ### The parameter has an instance -/

/-- A list with a `1` before each element and a `0` behind the last. -/
def writeTagged {α : Type} (write : α → Bytes) (xs : List α) : Bytes :=
  xs.flatMap (fun x => 1 :: write x) ++ [0]

/-- One round of reading it. -/
def readTaggedBody {α : Type} (read : FileReader α) (xs : List α) :
    FileReader (List α ⊕ List α) := do
  let tag ← next ()
  if tag = 0 then pure (.inr xs)
  else do
    let x ← read
    pure (.inl (xs ++ [x]))

def readTagged {α : Type} (read : FileReader α) : FileReader (List α) :=
  loop () (readTaggedBody read) []

/-- **A list with a tag in front of each element** and another one behind the last is read
back, with as many rounds as it has elements.  -/
theorem decodes_readTagged {α : Type} {read : FileReader α} {write : α → Bytes}
    (hshrinks : Shrinks read) (h : ∀ x, Decodes read (write x) x) (xs : List α) :
    Decodes (readTagged read) (writeTagged write xs) xs := by
  have hadvances : Advances (readTaggedBody read) := by
    refine Advances.of_consumes fun xs => (consumes_next ()).bind fun tag => ?_
    split
    · exact shrinks_pure _
    · exact hshrinks.bind fun _ => shrinks_pure _
  have key : ∀ (xs acc : List α),
      Decodes (loop () (readTaggedBody read) acc) (writeTagged write xs) (acc ++ xs) := by
    intro xs
    induction xs with
    | nil =>
        intro acc
        rw [List.append_nil]
        exact Decodes.loop_last hadvances
          ((Decodes.next () (0 : UInt8)).bind (v := []) (Decodes.pure (Sum.inr acc)))
    | cons x xs ih =>
        intro acc
        have hnext : Decodes (readTaggedBody read acc) (1 :: write x) (.inl (acc ++ [x])) := by
          have := (h x).bind_pure fun x => (Sum.inl (acc ++ [x]) : List α ⊕ List α)
          exact (Decodes.next () (1 : UInt8)).bind this
        have := Decodes.loop_next (e := ()) hadvances hnext (ih (acc ++ [x]))
        simpa [writeTagged] using this
  exact key xs []

/-- Reading such a list puts nothing back.  -/
theorem shrinks_readTagged {α : Type} {read : FileReader α} (h : Shrinks read) :
    Shrinks (readTagged read) := by
  refine shrinks_loop () (fun xs => (consumes_next ()).shrinks.bind fun tag => ?_) []
  split
  · exact shrinks_pure _
  · exact h.bind fun _ => shrinks_pure _

/-- The offsets, in order. -/
def sortedOffsets (m : ModuleCoverage) : List UInt64 := m.offsets.sort (· ≤ ·)

def writeModule (m : ModuleCoverage) : Bytes :=
  writeTagged (fun b => [b]) m.moduleName ++
    writeTagged fwrite64 (sortedOffsets m)

def readModule : FileReader ModuleCoverage := do
  let moduleName ← readTagged (next ())
  let offsets ← readTagged fread64
  pure ⟨moduleName, offsets.toFinset⟩

/-- A binary format with the property assumed of TinyInst's. -/
@[reducible] def taggedBinary : CoverageBinary where
  writeCoverageBinary := writeTagged writeModule
  readCoverageBinary := readTagged readModule
  decodes_coverage := by
    have hbyte : Shrinks (next () : FileReader UInt8) := (consumes_next ()).shrinks
    have hoffset : Shrinks fread64 :=
      (consumes_readLE () (by decide)).shrinks.bind fun _ => shrinks_pure _
    refine decodes_readTagged ?_ fun m => ?_
    · exact (shrinks_readTagged hbyte).bind fun _ =>
        (shrinks_readTagged hoffset).bind fun _ => shrinks_pure _
    · have hname := decodes_readTagged hbyte (fun b => Decodes.next () b) m.moduleName
      have hoffsets := decodes_readTagged hoffset decodes_fread64 (sortedOffsets m)
      have hmodule : Decodes readModule (writeModule m)
          ⟨m.moduleName, (sortedOffsets m).toFinset⟩ :=
        hname.bind (hoffsets.bind_pure fun offsets =>
          (⟨m.moduleName, offsets.toFinset⟩ : ModuleCoverage))
      rwa [show (sortedOffsets m).toFinset = m.offsets from Finset.sort_toFinset _ _] at hmodule

end Jackalope
