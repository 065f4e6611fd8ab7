/-
# Ranges in shared memory

`SHMRangeTracker` (`rangetracker.cpp`, lines 26-88).  The target writes the number of
ranges into the first 32-bit word of the shared memory and a pair of words for each range
behind it (`README_ranges.md`).  The memory is a list of bytes; a word that does not lie in
it cannot be read.

The number is held against `max_ranges`, which counts words and not pairs of words, so
`ExtractRanges` stays in the memory only for a number that fits by itself
(`extractRanges_eq`).  What it does with the pairs it has read is right: the consolidated
ranges are sorted, none meets the next, and together they are the ranges that were read;
no order of the input and no way of sorting it makes a difference
(`consolidateRanges_canonical`).
-/

import Jackalope.Foundation.Intervals
import Jackalope.Foundation.LittleEndian
import Jackalope.Prng
import Jackalope.Sample

namespace Jackalope
namespace RangeTracker

open Foundation

/-! ### `ConsolidateRanges` -/

/-- The loop of `ConsolidateRanges`, from the range that was put out last. -/
def mergeRanges : Range → List Range → List Range
  | lastrange, [] => [lastrange]
  | lastrange, currange :: rest =>
      if currange.rangeFrom ≤ lastrange.rangeTo then
        mergeRanges
          (if currange.rangeTo > lastrange.rangeTo then { lastrange with rangeTo := currange.rangeTo }
            else lastrange) rest
      else lastrange :: mergeRanges currange rest

/-- `ConsolidateRanges`; `sort` is `std::sort` with the `operator<` of `Range`. -/
def consolidateRanges (sort : List Range → List Range) (inranges outranges : List Range) :
    List Range :=
  if inranges = [] then outranges
  else
    match sort inranges with
    | [] => outranges -- not reached: nothing is lost in sorting
    | first :: rest => outranges ++ mergeRanges first rest

/-- What is relied on: the ranges are put in order by their `from`. -/
structure Sorts (sort : List Range → List Range) : Prop where
  perm : ∀ ranges, (sort ranges).Perm ranges
  sorted : ∀ ranges, (sort ranges).Pairwise fun r r' => r.rangeFrom ≤ r'.rangeFrom

/-- The position is in one of the ranges. -/
def Covered (ranges : List Range) (pos : ℕ) : Prop :=
  ∃ r ∈ ranges, r.rangeFrom ≤ pos ∧ pos < r.rangeTo

/-- What a range and those behind it cover.  -/
theorem covered_cons {r : Range} {ranges : List Range} {pos : ℕ} :
    Covered (r :: ranges) pos ↔ (r.rangeFrom ≤ pos ∧ pos < r.rangeTo) ∨ Covered ranges pos := by
  simp only [Covered, List.mem_cons, or_and_right, exists_or, exists_eq_left]

/-- Merging loses no position and adds none.  A range that begins within the one before it,
or where that one ends, is put into it; the end is the greater of both.  -/
theorem covered_mergeRanges {last : Range} {rest : List Range} {pos : ℕ}
    (hsorted : (last :: rest).Pairwise fun r r' => r.rangeFrom ≤ r'.rangeFrom) :
    Covered (mergeRanges last rest) pos ↔ Covered (last :: rest) pos := by
  induction rest generalizing last with
  | nil => exact Iff.rfl
  | cons cur rest ih =>
      obtain ⟨hlast, hrest⟩ := List.pairwise_cons.1 hsorted
      have hle := hlast cur List.mem_cons_self
      rw [mergeRanges]
      split
      · rename_i hmeets
        have htail := (List.pairwise_cons.1 hrest).2
        rw [ih, covered_cons, covered_cons, covered_cons, ← or_assoc]
        · refine or_congr_left ?_
          split
          · dsimp only
            omega
          · omega
        · refine List.pairwise_cons.2 ⟨fun r hr => ?_, htail⟩
          have := hlast r (List.mem_cons_of_mem _ hr)
          split <;> exact this
      · rw [covered_cons, ih hrest, ← covered_cons]

/-- What is put out begins where the first range begins, since the ranges come in the order
of their beginnings.  -/
theorem head_mergeRanges (last : Range) (rest : List Range) :
    ∃ rangeTo tail, mergeRanges last rest = { last with rangeTo := rangeTo } :: tail := by
  induction rest generalizing last with
  | nil => exact ⟨last.rangeTo, [], rfl⟩
  | cons cur rest ih =>
      rw [mergeRanges]
      split
      · split
        · exact ih { last with rangeTo := cur.rangeTo }
        · exact ih last
      · exact ⟨last.rangeTo, mergeRanges cur rest, rfl⟩

/-- No range meets the next: a range that did would have been merged into the one before it.
-/
theorem mergeRanges_isChain (last : Range) (rest : List Range) :
    (mergeRanges last rest).IsChain fun r r' => r.rangeTo < r'.rangeFrom := by
  induction rest generalizing last with
  | nil => exact List.IsChain.singleton _
  | cons cur rest ih =>
      rw [mergeRanges]
      split
      · exact ih _
      · rename_i hmeets
        obtain ⟨rangeTo, tail, heq⟩ := head_mergeRanges cur rest
        have hchain := ih cur
        rw [heq] at hchain ⊢
        exact List.IsChain.cons_cons (Nat.lt_of_not_le hmeets) hchain

/-- **Consolidation**: the same positions, in ranges of which none meets the next.  It is
enough that the sort puts the ranges in the order of their beginnings, whatever it does with
those that begin alike.  -/
theorem consolidateRanges_spec {sort : List Range → List Range} (hs : Sorts sort)
    (inranges : List Range) :
    (∀ pos, Covered (consolidateRanges sort inranges []) pos ↔ Covered inranges pos) ∧
      (consolidateRanges sort inranges []).IsChain fun r r' => r.rangeTo < r'.rangeFrom := by
  rw [consolidateRanges]
  split
  · rename_i hnil
    rw [hnil]
    exact ⟨fun _ => Iff.rfl, List.IsChain.nil⟩
  rename_i hne
  have hperm := hs.perm inranges
  have hsorted := hs.sorted inranges
  rcases hsort : sort inranges with _ | ⟨first, rest⟩
  · rw [hsort] at hperm
    exact absurd hperm.symm.eq_nil hne
  · rw [hsort] at hperm hsorted
    refine ⟨fun pos => ?_, mergeRanges_isChain first rest⟩
    show Covered (mergeRanges first rest) pos ↔ _
    rw [covered_mergeRanges hsorted]
    exact ⟨fun ⟨r, hr, h⟩ => ⟨r, hperm.mem_iff.1 hr, h⟩, fun ⟨r, hr, h⟩ => ⟨r, hperm.mem_iff.2 hr, h⟩⟩

/-! ### Consolidated ranges as a canonical form -/

/-- What the ranges link: a range that begins where another one ends belongs to it. -/
abbrev LinkedRanges : List Range → ℕ → ℕ → Prop := Linked Range.rangeFrom Range.rangeTo

/-- Ranges that are the right way round, each ending before the next begins. -/
abbrev SeparatedRanges : List Range → Prop := Separated Range.rangeFrom Range.rangeTo

/-- A range is its two ends.  -/
theorem Range.ext_ends (r r' : Range) (hfrom : r.rangeFrom = r'.rangeFrom)
    (hto : r.rangeTo = r'.rangeTo) : r = r' := by
  cases r
  cases r'
  cases hfrom
  cases hto
  rfl

/-- The range that the loop leaves when the current range meets the last one. -/
theorem rangeTo_extend (last cur : Range) :
    (if cur.rangeTo > last.rangeTo then { last with rangeTo := cur.rangeTo } else last).rangeTo =
      max last.rangeTo cur.rangeTo := by
  split
  · rename_i hgt
    exact (Nat.max_eq_right hgt.le).symm
  · rename_i hle
    exact (Nat.max_eq_left (Nat.not_lt.1 hle)).symm

/-- Extending a range leaves its beginning where it is, so the order stays.  -/
theorem rangeFrom_extend (last cur : Range) :
    (if cur.rangeTo > last.rangeTo then { last with rangeTo := cur.rangeTo } else last).rangeFrom =
      last.rangeFrom := by
  split <;> rfl

/-- Merging leaves what is linked as it was: two positions are linked if a chain of ranges
that meet leads from one to the other, and merged ranges are such a chain.  -/
theorem linked_mergeRanges {last : Range} {rest : List Range}
    (hsorted : (last :: rest).Pairwise fun r r' => r.rangeFrom ≤ r'.rangeFrom) {a b : ℕ} :
    LinkedRanges (mergeRanges last rest) a b ↔ LinkedRanges (last :: rest) a b := by
  induction rest generalizing last a b with
  | nil => exact Iff.rfl
  | cons cur rest ih =>
      obtain ⟨hlast, hrest⟩ := List.pairwise_cons.1 hsorted
      rw [mergeRanges]
      split
      · rename_i hmeets
        rw [ih]
        · exact linked_merge (hlast cur List.mem_cons_self) hmeets (rangeFrom_extend last cur)
            (rangeTo_extend last cur)
        · refine List.pairwise_cons.2 ⟨fun r hr => ?_, (List.pairwise_cons.1 hrest).2⟩
          rw [rangeFrom_extend]
          exact hlast r (List.mem_cons_of_mem _ hr)
      · exact linked_cons_congr fun a b => ih hrest

/-- No range is turned round by merging: an end only ever grows, so it stays behind its
beginning if it was there before.  -/
theorem le_of_mem_mergeRanges {last : Range} {rest : List Range}
    (hle : ∀ r ∈ last :: rest, r.rangeFrom ≤ r.rangeTo) :
    ∀ r ∈ mergeRanges last rest, r.rangeFrom ≤ r.rangeTo := by
  induction rest generalizing last with
  | nil => exact hle
  | cons cur rest ih =>
      rw [mergeRanges]
      split
      · refine ih fun r hr => ?_
        rcases List.mem_cons.1 hr with rfl | hr
        · rw [rangeFrom_extend, rangeTo_extend]
          exact (hle last List.mem_cons_self).trans (Nat.le_max_left _ _)
        · exact hle r (List.mem_cons_of_mem _ (List.mem_cons_of_mem _ hr))
      · intro r hr
        rcases List.mem_cons.1 hr with rfl | hr
        · exact hle r List.mem_cons_self
        · exact ih (fun r hr => hle r (List.mem_cons_of_mem _ hr)) r hr

/-- Ranges of which none meets the next stand apart altogether, since none of them is turned
round and so each lies before all that come after it.  -/
theorem separatedRanges_of_isChain {ranges : List Range}
    (hle : ∀ r ∈ ranges, r.rangeFrom ≤ r.rangeTo)
    (hchain : ranges.IsChain fun r r' => r.rangeTo < r'.rangeFrom) : SeparatedRanges ranges := by
  refine ⟨hle, ?_⟩
  induction ranges with
  | nil => exact List.Pairwise.nil
  | cons r ranges ih =>
      have htail := ih (fun s hs => hle s (List.mem_cons_of_mem _ hs)) hchain.of_cons
      refine List.pairwise_cons.2 ⟨fun s hs => ?_, htail⟩
      rcases ranges with _ | ⟨next, ranges⟩
      · exact absurd hs List.not_mem_nil
      have hnext : r.rangeTo < next.rangeFrom := (List.isChain_cons_cons.1 hchain).1
      rcases List.mem_cons.1 hs with rfl | hs
      · exact hnext
      · have hle' := hle next (List.mem_cons_of_mem _ List.mem_cons_self)
        have := (List.pairwise_cons.1 htail).1 s hs
        omega

/-- What consolidation puts out stands apart, and links what the input links.  The two
together determine it, so it depends neither on the order of the input nor on the sort.  -/
theorem consolidateRanges_separated {sort : List Range → List Range} (hs : Sorts sort)
    {ranges : List Range} (hle : ∀ r ∈ ranges, r.rangeFrom ≤ r.rangeTo) :
    SeparatedRanges (consolidateRanges sort ranges []) ∧
      ∀ a b, LinkedRanges (consolidateRanges sort ranges []) a b ↔ LinkedRanges ranges a b := by
  have hchain := (consolidateRanges_spec hs ranges).2
  rw [consolidateRanges] at hchain ⊢
  split at hchain
  · rename_i hnil
    rw [if_pos hnil, hnil]
    exact ⟨Separated.nil, fun _ _ => Iff.rfl⟩
  rename_i hne
  rw [if_neg hne]
  have hperm := hs.perm ranges
  have hsorted := hs.sorted ranges
  rcases hsort : sort ranges with _ | ⟨first, rest⟩
  · rw [hsort] at hperm
    exact absurd hperm.symm.eq_nil hne
  · rw [hsort] at hperm hsorted hchain
    refine ⟨separatedRanges_of_isChain (le_of_mem_mergeRanges fun r hr => ?_) hchain, fun a b => ?_⟩
    · exact hle r (hperm.mem_iff.1 hr)
    · exact (linked_mergeRanges hsorted).trans (linked_perm hperm)

/-- **Consolidation is a canonical form.**  What it puts out is in order with a gap behind
every range and has the positions of the input; it is the same for every order of the input,
however the sorting breaks ties, and consolidating it again gives it back. -/
theorem consolidateRanges_canonical {sort sort' : List Range → List Range} (hs : Sorts sort)
    (hs' : Sorts sort') (ranges : List Range) (hle : ∀ r ∈ ranges, r.rangeFrom ≤ r.rangeTo) :
    (∀ r ∈ consolidateRanges sort ranges [], r.rangeFrom ≤ r.rangeTo) ∧
      ((consolidateRanges sort ranges []).Pairwise fun r r' => r.rangeTo < r'.rangeFrom) ∧
      (∀ pos, Covered (consolidateRanges sort ranges []) pos ↔ Covered ranges pos) ∧
      (∀ ranges', ranges'.Perm ranges →
        consolidateRanges sort' ranges' [] = consolidateRanges sort ranges []) ∧
      consolidateRanges sort' (consolidateRanges sort ranges []) [] =
        consolidateRanges sort ranges [] := by
  obtain ⟨hsep, hlinked⟩ := consolidateRanges_separated hs hle
  refine ⟨hsep.le, hsep.apart, (consolidateRanges_spec hs ranges).1, fun ranges' hperm => ?_, ?_⟩
  · obtain ⟨hsep', hlinked'⟩ := @consolidateRanges_separated sort' hs' ranges'
      fun r hr => hle r (hperm.mem_iff.1 hr)
    refine hsep'.eq_of_linked_iff Range.ext_ends hsep fun a b => ?_
    exact (hlinked' a b).trans ((linked_perm hperm).trans (hlinked a b).symm)
  · obtain ⟨hsep', hlinked'⟩ := consolidateRanges_separated hs' hsep.le
    exact hsep'.eq_of_linked_iff Range.ext_ends hsep hlinked'

/-! ### `ExtractRanges` -/

/-- `SHMRangeTracker`, with what is in its memory. -/
structure SHMRangeTracker where
  shm : Bytes
  maxRanges : ℕ

/-- `SHMRangeTracker(name, size)` for memory of this size, which is at least 4. -/
def SHMRangeTracker.create (shm : Bytes) : SHMRangeTracker :=
  ⟨toLE 4 0 ++ shm.drop 4, (shm.length - 4) / 4⟩

/-- The target writes into the memory. -/
def SHMRangeTracker.write (tracker : SHMRangeTracker) (content : Bytes) : SHMRangeTracker :=
  { tracker with shm := content }

/-- The word at an index of the memory. -/
def wordAt (shm : Bytes) (index : ℕ) : ℕ := ofLE ((shm.drop (4 * index)).take 4)

/-- A word is read. -/
def readWord (shm : Bytes) (index : ℕ) : Except Stop ℕ :=
  if 4 * index + 4 ≤ shm.length then .ok (wordAt shm index) else .error .undefined

/-- The loop of `ExtractRanges`: `i` more ranges, `buf` being at this index. -/
def readRanges (shm : Bytes) : ℕ → ℕ → Except Stop (List Range)
  | 0, _ => .ok []
  | i + 1, buf => do
      let rangeFrom ← readWord shm buf
      let rangeTo ← readWord shm (buf + 1)
      let rest ← readRanges shm i (buf + 2)
      .ok (⟨rangeFrom, rangeTo⟩ :: rest)

/-- `ExtractRanges`. -/
def SHMRangeTracker.extractRanges (sort : List Range → List Range) (tracker : SHMRangeTracker)
    (ranges : List Range) : Except Stop (List Range) := do
  let numranges ← readWord tracker.shm 0
  if numranges = 0 then .ok ranges
  else do
    let numranges := if numranges > tracker.maxRanges then tracker.maxRanges else numranges
    let tmpranges ← readRanges tracker.shm numranges 1
    .ok (consolidateRanges sort tmpranges ranges)

/-- So many pairs of words from an index on. -/
def pairsFrom (shm : Bytes) (buf n : ℕ) : List Range :=
  (List.range n).map fun i => ⟨wordAt shm (buf + 2 * i), wordAt shm (buf + 2 * i + 1)⟩

/-- How many pairs of words fit into the memory behind the first word. -/
def fittingPairs (shm : Bytes) : ℕ := (shm.length - 4) / 8

/-- A word within the shared memory can be read.  -/
theorem readWord_ok {shm : Bytes} {index : ℕ} (h : 4 * index + 4 ≤ shm.length) :
    readWord shm index = .ok (wordAt shm index) := if_pos h

/-- A word that is not all within it cannot.  -/
theorem readWord_error {shm : Bytes} {index : ℕ} (h : shm.length < 4 * index + 4) :
    readWord shm index = .error .undefined := if_neg (Nat.not_le.2 h)

/-- Pairs that are in the memory are read, word by word, in their order and with nothing
left out.  -/
theorem readRanges_ok {shm : Bytes} {n buf : ℕ} (h : 4 * (buf + 2 * n) ≤ shm.length) :
    readRanges shm n buf = .ok (pairsFrom shm buf n) := by
  induction n generalizing buf with
  | zero => rfl
  | succ n ih =>
      rw [readRanges, readWord_ok (by omega), readWord_ok (by omega), ih (by omega)]
      rw [pairsFrom, pairsFrom, List.range_succ_eq_map, List.map_cons, List.map_map]
      show Except.ok _ = Except.ok _
      congr 2
      refine List.map_congr_left fun i _ => ?_
      show Range.mk _ _ = Range.mk _ _
      congr 2 <;> omega

/-- The first pair that is not in the memory ends the loop: the words are read in order, and
the memory ends before the last of them.  -/
theorem readRanges_error {shm : Bytes} {n buf : ℕ} (hn : 0 < n)
    (h : shm.length < 4 * (buf + 2 * n)) : readRanges shm n buf = .error .undefined := by
  induction n generalizing buf with
  | zero => exact absurd hn (lt_irrefl 0)
  | succ n ih =>
      rw [readRanges]
      rcases Nat.lt_or_ge shm.length (4 * buf + 4) with h₁ | h₁
      · rw [readWord_error h₁]
        rfl
      rw [readWord_ok h₁]
      rcases Nat.lt_or_ge shm.length (4 * (buf + 1) + 4) with h₂ | h₂
      · show (readWord shm (buf + 1) >>= _) = _
        rw [readWord_error h₂]
        rfl
      · show (readWord shm (buf + 1) >>= _) = _
        rw [readWord_ok h₂]
        show (readRanges shm n (buf + 2) >>= _) = _
        rw [ih (by omega) (by omega)]
        rfl

/-- **What `ExtractRanges` returns**, for any tracker and any content: the count is the
first word, cut to `max_ranges`, and if that many pairs are in the memory they are
consolidated.  If not, the source reads behind the memory.  -/
theorem extractRanges_eq (sort : List Range → List Range) (tracker : SHMRangeTracker)
    (ranges : List Range) (h : 4 ≤ tracker.shm.length) :
    tracker.extractRanges sort ranges =
      if min (wordAt tracker.shm 0) tracker.maxRanges ≤ fittingPairs tracker.shm then
        .ok (consolidateRanges sort
          (pairsFrom tracker.shm 1 (min (wordAt tracker.shm 0) tracker.maxRanges)) ranges)
      else .error .undefined := by
  have hmin : (if wordAt tracker.shm 0 > tracker.maxRanges then tracker.maxRanges
      else wordAt tracker.shm 0) = min (wordAt tracker.shm 0) tracker.maxRanges := by
    split <;> omega
  rw [SHMRangeTracker.extractRanges, readWord_ok (by omega)]
  show (if wordAt tracker.shm 0 = 0 then _ else readRanges _ (if _ > _ then _ else _) _ >>= _) = _
  rw [hmin]
  by_cases hzero : wordAt tracker.shm 0 = 0
  · rw [if_pos hzero, hzero, Nat.zero_min, if_pos (Nat.zero_le _)]
    rfl
  rw [if_neg hzero]
  by_cases hfit : min (wordAt tracker.shm 0) tracker.maxRanges ≤ fittingPairs tracker.shm
  · unfold fittingPairs at hfit
    rw [readRanges_ok (by omega), if_pos (by unfold fittingPairs; exact hfit)]
    rfl
  · rw [if_neg hfit]
    unfold fittingPairs at hfit
    rw [readRanges_error (by omega) (by omega)]
    rfl

/-- **Where `ExtractRanges` stays in the memory**, and yields the ranges that were written
there: a number of ranges that fits, or memory of less than 8 bytes.  The tracker computes
how many ranges fit from the size of the memory in words, and forgets the word of the count,
so the number one above what fits is not cut either.  -/
theorem extractRanges_inBuffer_iff (sort : List Range → List Range) (shm content : Bytes)
    (ranges : List Range) (hsize : 4 ≤ shm.length) (hcontent : content.length = shm.length) :
    ((SHMRangeTracker.create shm).write content).extractRanges sort ranges =
        .ok (consolidateRanges sort
          (pairsFrom content 1 (min (wordAt content 0) (fittingPairs content))) ranges) ↔
      wordAt content 0 ≤ fittingPairs content ∨ shm.length < 8 := by
  have hmax : ((SHMRangeTracker.create shm).write content).maxRanges = (content.length - 4) / 4 := by
    rw [hcontent]
    rfl
  rw [extractRanges_eq sort _ ranges (by rw [← hcontent] at hsize; exact hsize), hmax]
  show (if min (wordAt content 0) ((content.length - 4) / 4) ≤ fittingPairs content then _ else _) = _ ↔ _
  have hle : fittingPairs content ≤ (content.length - 4) / 4 := by
    unfold fittingPairs
    omega
  constructor
  · intro h
    split at h
    · rename_i hfit
      by_contra hbad
      rw [not_or] at hbad
      unfold fittingPairs at hfit hbad
      omega
    · cases h
  · intro h
    have hmin : min (wordAt content 0) ((content.length - 4) / 4) =
        min (wordAt content 0) (fittingPairs content) := by
      rcases h with h | h
      · rw [Nat.min_eq_left h, Nat.min_eq_left (h.trans hle)]
      · unfold fittingPairs
        congr 1
        omega
    rw [hmin, if_pos (Nat.min_le_right _ _)]
    show Except.ok (consolidateRanges sort (pairsFrom content 1 (min (wordAt content 0) _)) ranges) = _
    rw [hmin]

/-- `std::sort`, for the examples. -/
def sortRanges (ranges : List Range) : List Range :=
  ranges.mergeSort fun r r' => decide (r.rangeFrom ≤ r'.rangeFrom)

/-- Merge sort is one of the sorts that `std::sort` may be.  -/
theorem sorts_sortRanges : Sorts sortRanges where
  perm ranges := List.mergeSort_perm ranges _
  sorted ranges := by
    have := @List.pairwise_mergeSort Range (fun r r' => decide (r.rangeFrom ≤ r'.rangeFrom))
      (fun a b c hab hbc => by simp only [decide_eq_true_eq] at hab hbc ⊢; omega)
      (fun a b => by simp only [Bool.or_eq_true, decide_eq_true_eq]; omega) ranges
    exact this.imp fun h => by simpa using h

/-- Nested, overlapping, touching and empty ranges, of which two begin alike: the result
stands apart and covers what they cover, in whatever order they come.  -/
theorem consolidateRanges_canonical_nested :
    (∀ r ∈ consolidateRanges sortRanges [⟨5, 5⟩, ⟨0, 9⟩, ⟨0, 2⟩, ⟨9, 11⟩, ⟨12, 14⟩] [],
        r.rangeFrom ≤ r.rangeTo) ∧
      ((consolidateRanges sortRanges [⟨5, 5⟩, ⟨0, 9⟩, ⟨0, 2⟩, ⟨9, 11⟩, ⟨12, 14⟩] []).Pairwise
        fun r r' => r.rangeTo < r'.rangeFrom) ∧
      (∀ pos, Covered (consolidateRanges sortRanges
          [⟨5, 5⟩, ⟨0, 9⟩, ⟨0, 2⟩, ⟨9, 11⟩, ⟨12, 14⟩] []) pos ↔
        Covered [⟨5, 5⟩, ⟨0, 9⟩, ⟨0, 2⟩, ⟨9, 11⟩, ⟨12, 14⟩] pos) ∧
      (∀ ranges', ranges'.Perm [⟨5, 5⟩, ⟨0, 9⟩, ⟨0, 2⟩, ⟨9, 11⟩, ⟨12, 14⟩] →
        consolidateRanges sortRanges ranges' [] =
          consolidateRanges sortRanges [⟨5, 5⟩, ⟨0, 9⟩, ⟨0, 2⟩, ⟨9, 11⟩, ⟨12, 14⟩] []) ∧
      consolidateRanges sortRanges
          (consolidateRanges sortRanges [⟨5, 5⟩, ⟨0, 9⟩, ⟨0, 2⟩, ⟨9, 11⟩, ⟨12, 14⟩] []) [] =
        consolidateRanges sortRanges [⟨5, 5⟩, ⟨0, 9⟩, ⟨0, 2⟩, ⟨9, 11⟩, ⟨12, 14⟩] [] :=
  consolidateRanges_canonical sorts_sortRanges sorts_sortRanges
    [⟨5, 5⟩, ⟨0, 9⟩, ⟨0, 2⟩, ⟨9, 11⟩, ⟨12, 14⟩] (by decide)

/-- A target that read one part of its sample, in memory for one range: the count is 1, the
words behind it are the range, and the range is what comes out.  -/
theorem extractRanges_inBuffer_oneRange :
    ((SHMRangeTracker.create (List.replicate 12 0)).write
        (toLE 4 1 ++ toLE 4 10 ++ toLE 4 20)).extractRanges sortRanges [] =
      .ok (consolidateRanges sortRanges (pairsFrom (toLE 4 1 ++ toLE 4 10 ++ toLE 4 20) 1
        (min (wordAt (toLE 4 1 ++ toLE 4 10 ++ toLE 4 20) 0)
          (fittingPairs (toLE 4 1 ++ toLE 4 10 ++ toLE 4 20)))) []) :=
  (extractRanges_inBuffer_iff sortRanges (List.replicate 12 0) (toLE 4 1 ++ toLE 4 10 ++ toLE 4 20) []
    (by decide) (by decide)).2 (Or.inl (by decide))

/-- 512 ranges, and the first 511 of them, which is what fits into 4096 bytes. -/
def overfullContent : Bytes := toLE 4 512 ++ List.replicate 4092 0

/-- The memory has the size that the tracker makes it.  -/
theorem length_overfullContent : overfullContent.length = 4096 := by
  rw [overfullContent, List.length_append, length_toLE, List.length_replicate]

/-- Its count says one range more than there is room for.  -/
theorem wordAt_overfullContent : wordAt overfullContent 0 = 512 := by
  have htake : (overfullContent.drop (4 * 0)).take 4 = toLE 4 512 := List.take_left' (length_toLE 4 512)
  rw [wordAt, htake, ofLE_toLE_of_lt (by decide)]

/-- In memory of `RANGE_SHM_SIZE` bytes the 512th range is read from behind the memory: two
words for each range and one for the count do not fit, though the header says they do.  -/
theorem extractRanges_overfullContent : wordAt overfullContent 0 = 512 ∧
    ((SHMRangeTracker.create (List.replicate 4096 0)).write overfullContent).extractRanges sortRanges [] =
      .error .undefined := by
  refine ⟨wordAt_overfullContent, ?_⟩
  have hlength : ((SHMRangeTracker.create (List.replicate 4096 0)).write
      overfullContent).shm.length = 4096 := length_overfullContent
  rw [extractRanges_eq _ _ _ (by omega), if_neg]
  have hword : wordAt ((SHMRangeTracker.create (List.replicate 4096 0)).write overfullContent).shm 0 = 512 :=
    wordAt_overfullContent
  have hmax : ((SHMRangeTracker.create (List.replicate 4096 0)).write overfullContent).maxRanges = 1023 := by
    show ((List.replicate 4096 (0 : UInt8)).length - 4) / 4 = 1023
    rw [List.length_replicate]
  unfold fittingPairs
  omega

end RangeTracker
end Jackalope
