/-
# Coverage, and what the repository takes from TinyInst

`coverage.h` of TinyInst declares `ModuleCoverage` (a module name and a set of
offsets), `Coverage` (a list of them) and the operations on coverage.  The
submodule is not part of this repository, so the operations are parameters here:
`TinyInst` lists the ones that are called and what their callers rely on, in
terms of the (module, offset) pairs of a coverage.
-/

import Mathlib.Data.Finset.Basic
import Mathlib.Data.Set.Basic

namespace Jackalope

/-- `std::string` and raw buffers. -/
abbrev Bytes := List UInt8

/-- The bytes of an ASCII literal of the source. -/
def str (s : String) : Bytes := s.toList.map fun c => c.toNat.toUInt8

/-- `ModuleCoverage` of `coverage.h`. -/
structure ModuleCoverage where
  moduleName : Bytes
  offsets : Finset UInt64
  deriving DecidableEq

/-- `Coverage` of `coverage.h`: `std::list<ModuleCoverage>`. -/
abbrev Coverage := List ModuleCoverage

/-- The (module, offset) pairs of a coverage. -/
def pairs (c : Coverage) : Set (Bytes × UInt64) :=
  {p | ∃ m ∈ c, m.moduleName = p.1 ∧ p.2 ∈ m.offsets}

/-- What it is to be one of the pairs: some entry of the list has the name of the module and
the offset among its own.  A module may have several entries.  -/
theorem mem_pairs {c : Coverage} {p : Bytes × UInt64} :
    p ∈ pairs c ↔ ∃ m ∈ c, m.moduleName = p.1 ∧ p.2 ∈ m.offsets := Iff.rfl

/-- No coverage, no pairs.  -/
@[simp] theorem pairs_nil : pairs [] = ∅ := by
  ext p
  simp [mem_pairs]

/-- The order of the entries does not matter to the pairs, nor how they are split over
entries with the same name.  -/
@[simp] theorem pairs_append (c d : Coverage) : pairs (c ++ d) = pairs c ∪ pairs d := by
  ext p
  simp only [mem_pairs, List.mem_append, Set.mem_union]
  constructor
  · rintro ⟨m, hm | hm, h⟩
    · exact Or.inl ⟨m, hm, h⟩
    · exact Or.inr ⟨m, hm, h⟩
  · rintro (⟨m, hm, h⟩ | ⟨m, hm, h⟩)
    · exact ⟨m, Or.inl hm, h⟩
    · exact ⟨m, Or.inr hm, h⟩

/-- The functions of `coverage.h` that the repository calls.  Each takes its
inputs and returns what the C++ function leaves in its output (for
`MergeCoverage` the first argument); `getModuleCoverage` returns the position of
the entry that the C++ pointer points at. -/
class TinyInst where
  getModuleCoverage : Coverage → Bytes → Option ℕ
  coverageDifference : Coverage → Coverage → Coverage
  mergeCoverage : Coverage → Coverage → Coverage
  coverageIntersection : Coverage → Coverage → Coverage
  coverageContains : Coverage → Coverage → Bool
  /-- The entry found is one with that name. -/
  getModuleCoverage_some : ∀ a n i, getModuleCoverage a n = some i →
    ∃ m, a[i]? = some m ∧ m.moduleName = n
  /-- An entry with that name is found. -/
  getModuleCoverage_none : ∀ a n, getModuleCoverage a n = none → ∀ m ∈ a, m.moduleName ≠ n
  /-- `CoverageDifference(a, b, out)`: the pairs of `b` that are not in `a`. -/
  pairs_difference : ∀ a b, pairs (coverageDifference a b) = pairs b \ pairs a
  /-- `out` is empty iff there are none. -/
  difference_eq_nil : ∀ a b, coverageDifference a b = [] ↔ pairs b ⊆ pairs a
  pairs_merge : ∀ a b, pairs (mergeCoverage a b) = pairs a ∪ pairs b
  pairs_intersection : ∀ a b, pairs (coverageIntersection a b) = pairs a ∩ pairs b
  contains_iff : ∀ a b, coverageContains a b = true ↔ pairs b ⊆ pairs a

export TinyInst (getModuleCoverage coverageDifference mergeCoverage coverageIntersection
  coverageContains pairs_difference difference_eq_nil pairs_merge pairs_intersection contains_iff)

/-! ### The parameter has an instance -/

/-- The offsets that a coverage has for a module. -/
def offsetsOf (c : Coverage) (n : Bytes) : Finset UInt64 :=
  c.foldr (fun m s => if m.moduleName = n then m.offsets ∪ s else s) ∅

/-- The offsets of a module are those of all its entries together, so they say the same as
the pairs.  -/
theorem mem_offsetsOf {c : Coverage} {n : Bytes} {o : UInt64} :
    o ∈ offsetsOf c n ↔ (n, o) ∈ pairs c := by
  induction c with
  | nil => simp [offsetsOf]
  | cons m c ih =>
      have hcons : offsetsOf (m :: c) n =
          if m.moduleName = n then m.offsets ∪ offsetsOf c n else offsetsOf c n := rfl
      have hmem : (n, o) ∈ pairs (m :: c) ↔
          m.moduleName = n ∧ o ∈ m.offsets ∨ (n, o) ∈ pairs c := by
        simp [mem_pairs]
      rw [hcons, hmem, ← ih]
      by_cases h : m.moduleName = n <;> simp [h]

/-- A coverage with the given offsets for each of its modules, modules left
without offsets dropped. -/
def mapOffsets (c : Coverage) (f : ModuleCoverage → Finset UInt64) : Coverage :=
  c.filterMap fun m => if f m = ∅ then none else some { m with offsets := f m }

/-- Dropping the entries that are left without offsets loses no pair: a module without
offsets has none, so the set of pairs does not know of it.  -/
theorem mem_pairs_mapOffsets {c : Coverage} {f : ModuleCoverage → Finset UInt64}
    {p : Bytes × UInt64} :
    p ∈ pairs (mapOffsets c f) ↔ ∃ m ∈ c, m.moduleName = p.1 ∧ p.2 ∈ f m := by
  simp only [mem_pairs, mapOffsets, List.mem_filterMap]
  constructor
  · rintro ⟨m', ⟨m, hm, hsome⟩, hn, ho⟩
    split at hsome
    · cases hsome
    · cases hsome
      exact ⟨m, hm, hn, ho⟩
  · rintro ⟨m, hm, hn, ho⟩
    have hne : f m ≠ ∅ := Finset.ne_empty_of_mem ho
    exact ⟨{ m with offsets := f m }, ⟨m, hm, by rw [if_neg hne]⟩, hn, ho⟩

/-- The list that is left is empty exactly when no entry keeps an offset, which is what a
caller asks when it tests whether a difference is empty.  -/
theorem mapOffsets_eq_nil {c : Coverage} {f : ModuleCoverage → Finset UInt64} :
    mapOffsets c f = [] ↔ ∀ m ∈ c, f m = ∅ := by
  rw [mapOffsets, List.filterMap_eq_nil_iff]
  refine forall₂_congr fun m _ => ?_
  split <;> simp_all

/-- Put the offsets of one module into its entry, or into a new one. -/
def addModule : Coverage → ModuleCoverage → Coverage
  | [], m => [m]
  | x :: xs, m =>
      if x.moduleName = m.moduleName then { x with offsets := x.offsets ∪ m.offsets } :: xs
      else x :: addModule xs m

/-- The pairs of a list, entry by entry.  -/
theorem pairs_cons (m : ModuleCoverage) (c : Coverage) :
    pairs (m :: c) = pairs [m] ∪ pairs c := pairs_append [m] c

/-- **One module is merged**, into its entry if it has one and into a new one otherwise.  -/
theorem pairs_addModule (c : Coverage) (m : ModuleCoverage) :
    pairs (addModule c m) = pairs c ∪ pairs [m] := by
  induction c with
  | nil => simp [addModule]
  | cons x xs ih =>
      rw [addModule]
      split
      · rename_i h
        have hx : pairs [{ x with offsets := x.offsets ∪ m.offsets }] = pairs [x] ∪ pairs [m] := by
          ext ⟨n, o⟩
          simp [mem_pairs, h, and_or_left]
        rw [pairs_cons, hx, pairs_cons x xs, Set.union_right_comm]
      · rw [pairs_cons, ih, pairs_cons x xs, Set.union_assoc]

/-- Merging module by module gives the pairs of both; this is the `pairs_merge` of the
instance below.  -/
theorem pairs_foldl_addModule (a b : Coverage) :
    pairs (b.foldl addModule a) = pairs a ∪ pairs b := by
  induction b generalizing a with
  | nil => simp
  | cons m b ih => rw [List.foldl_cons, ih, pairs_addModule, pairs_cons m b, Set.union_assoc]

/-- Coverage operations with the properties assumed of TinyInst's. -/
@[reducible] def listTinyInst : TinyInst where
  getModuleCoverage c n := c.findIdx? fun m => decide (m.moduleName = n)
  coverageDifference a b := mapOffsets b fun m => m.offsets \ offsetsOf a m.moduleName
  mergeCoverage a b := b.foldl addModule a
  coverageIntersection a b := mapOffsets a fun m => m.offsets ∩ offsetsOf b m.moduleName
  coverageContains a b := b.all fun m => decide (m.offsets ⊆ offsetsOf a m.moduleName)
  getModuleCoverage_some a n i h := by
    obtain ⟨hi, hn, -⟩ := List.findIdx?_eq_some_iff_getElem.1 h
    exact ⟨a[i], List.getElem?_eq_getElem hi, by simpa using hn⟩
  getModuleCoverage_none a n h := by
    intro m hm
    simpa using List.findIdx?_eq_none_iff.1 h m hm
  pairs_difference a b := by
    ext ⟨n, o⟩
    rw [mem_pairs_mapOffsets, Set.mem_sdiff, mem_pairs]
    constructor
    · rintro ⟨m, hm, rfl, ho⟩
      rw [Finset.mem_sdiff, mem_offsetsOf] at ho
      exact ⟨⟨m, hm, rfl, ho.1⟩, ho.2⟩
    · rintro ⟨⟨m, hm, rfl, ho⟩, hno⟩
      exact ⟨m, hm, rfl, Finset.mem_sdiff.2 ⟨ho, by rwa [mem_offsetsOf]⟩⟩
  difference_eq_nil a b := by
    rw [mapOffsets_eq_nil]
    constructor
    · rintro h ⟨n, o⟩ ⟨m, hm, rfl, ho⟩
      exact mem_offsetsOf.1 (Finset.sdiff_eq_empty_iff_subset.1 (h m hm) ho)
    · intro h m hm
      rw [Finset.sdiff_eq_empty_iff_subset]
      exact fun o ho => mem_offsetsOf.2 (h ⟨m, hm, rfl, ho⟩)
  pairs_merge := pairs_foldl_addModule
  pairs_intersection a b := by
    ext ⟨n, o⟩
    rw [mem_pairs_mapOffsets, Set.mem_inter_iff, mem_pairs]
    constructor
    · rintro ⟨m, hm, rfl, ho⟩
      rw [Finset.mem_inter, mem_offsetsOf] at ho
      exact ⟨⟨m, hm, rfl, ho.1⟩, ho.2⟩
    · rintro ⟨⟨m, hm, rfl, ho⟩, hb⟩
      exact ⟨m, hm, rfl, Finset.mem_inter.2 ⟨ho, mem_offsetsOf.2 hb⟩⟩
  contains_iff a b := by
    simp only [List.all_eq_true, decide_eq_true_eq]
    constructor
    · rintro h ⟨n, o⟩ ⟨m, hm, rfl, ho⟩
      exact mem_offsetsOf.1 (h m hm ho)
    · intro h m hm o ho
      exact mem_offsetsOf.2 (h ⟨m, hm, rfl, ho⟩)

end Jackalope
