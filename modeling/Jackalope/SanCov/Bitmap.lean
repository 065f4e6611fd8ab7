/-
# The sanitizer-coverage bitmap

`sancovclient.cpp` (lines 60-119) writes it in the target, one bit for each guard
that was executed; `SanCovInstrumentation` (`sancovinstrumentation.cpp`, lines
356-408) reads it, eight bytes at a time, and clears it.  The guards are numbered
from 1, so with `n` guards the bits in use are `1..n` and the last one lies in
byte `n / 8`; but the instrumentation scans and clears `(n + 7) / 8` bytes.  When
`n` is a multiple of 8, that is one byte too few.

`getCoverage_exact_iff` says for every number of guards and every sequence of
runs what comes of it: the last guard is not cleared, and then it is reported
again after a run that did not execute it, unless `n` is a multiple of 64 as well,
when it is not even looked at; and from `n = 8388545` on the last word to be read
lies partly behind the shared memory.
-/

import Jackalope.Coverage
import Jackalope.Foundation.BitArray
import Jackalope.Foundation.Run
import Mathlib.Data.Finset.Sort
import Mathlib.Data.Fintype.Basic

namespace Jackalope
namespace SanCov

open Foundation

/-- `sizeof(edges)` in a mapping of `COVERAGE_SHM_SIZE` bytes that begins with
`num_edges`. -/
def edgesSize : ℕ := 0x100000 - 4

/-- The size of `virgin_bits`. -/
def virginSize : ℕ := 0x100000

/-- `MAX_EDGES`. -/
def maxEdges : ℕ := (0x100000 - 4) * 8

/-- The name under which the offsets are reported. -/
def moduleName : Bytes := str "target"

/-- The guards of a target with `n` of them, the shared `edges` and `virgin_bits`.
`cov_shm->num_edges` is `n`. -/
structure Bitmap (n : ℕ) where
  guards : Fin n → ℕ
  edges : BitArray
  virginBits : BitArray

variable {n : ℕ}

/-- After `Init` and `__sanitizer_cov_trace_pc_guard_init`. -/
def Bitmap.init (n : ℕ) : Bitmap n where
  guards _ := 0
  edges _ := 0
  virginBits _ := 0xff

/-! ### The target -/

/-- `__sanitizer_cov_reset_edgeguards`: the guards are numbered from 1, up to
`MAX_EDGES`. -/
def sanitizerCovResetEdgeguards (s : Bitmap n) : Bitmap n :=
  { s with guards := fun x => if x.val < maxEdges then x.val + 1 else s.guards x }

/-- `__sanitizer_cov_trace_pc_guard`; no result if it writes behind `edges`. -/
def sanitizerCovTracePcGuard (s : Bitmap n) (guard : Fin n) : Option (Bitmap n) :=
  let index := s.guards guard
  if index = 0 then some s
  else if edgesSize ≤ index / 8 then none
  else some { s with
    edges := s.edges.set index
    guards := Function.update s.guards guard 0 }

/-- A run of the target: `__pre_fuzz` resets the guards, then these are executed,
in this order. -/
def runTarget (s : Bitmap n) (executed : List (Fin n)) : Option (Bitmap n) :=
  executed.foldlM sanitizerCovTracePcGuard (sanitizerCovResetEdgeguards s)

/-- The numbers of the guards a run executed. -/
def hits (executed : List (Fin n)) : Set ℕ := {i | ∃ x ∈ executed, i = x.val + 1}

/-- The first edge that is executed is a hit, and so are those of the others.  -/
theorem mem_hits_cons {x : Fin n} {executed : List (Fin n)} {i : ℕ} :
    i ∈ hits (x :: executed) ↔ i = x.val + 1 ∨ i ∈ hits executed := by
  simp [hits]

/-- The numbers of edges begin at 1 and end with the number of guards.  -/
theorem le_of_mem_hits {executed : List (Fin n)} {i : ℕ} (h : i ∈ hits executed) :
    0 < i ∧ i ≤ n := by
  obtain ⟨x, -, rfl⟩ := h
  have := x.isLt
  omega

/-- **A run sets the bits of the guards it executes**, and nothing else: a guard
that is disabled has its bit set already. -/
theorem runTarget_spec (hn : n < maxEdges) (s : Bitmap n) (executed : List (Fin n)) :
    ∃ s', runTarget s executed = some s' ∧ s'.virginBits = s.virginBits ∧
      ∀ i, s'.edges.bit i = true ↔ i ∈ hits executed ∨ s.edges.bit i = true := by
  have key : ∀ (executed : List (Fin n)) (s : Bitmap n),
      (∀ x, s.guards x = x.val + 1 ∨ s.guards x = 0 ∧ s.edges.bit (x.val + 1) = true) →
      ∃ s', executed.foldlM sanitizerCovTracePcGuard s = some s' ∧
        s'.virginBits = s.virginBits ∧
        ∀ i, s'.edges.bit i = true ↔ i ∈ hits executed ∨ s.edges.bit i = true := by
    intro executed
    induction executed with
    | nil =>
        intro s _
        exact ⟨s, rfl, rfl, fun i => by simp [hits]⟩
    | cons x executed ih =>
        intro s hs
        rcases hs x with hx | ⟨hx, hbit⟩
        · have hin : ¬ edgesSize ≤ (x.val + 1) / 8 := by
            have := x.isLt
            unfold edgesSize
            unfold maxEdges at hn
            omega
          have hstep : sanitizerCovTracePcGuard s x = some { s with
              edges := s.edges.set (x.val + 1)
              guards := Function.update s.guards x 0 } := by
            simp only [sanitizerCovTracePcGuard, hx]
            rw [if_neg (Nat.succ_ne_zero _), if_neg hin]
          obtain ⟨s', hs', hvirgin, hbits⟩ := ih { s with
              edges := s.edges.set (x.val + 1)
              guards := Function.update s.guards x 0 } (by
            intro y
            by_cases hy : y = x
            · subst hy
              exact Or.inr ⟨by simp, by simp [BitArray.bit_set]⟩
            · have hval : y.val ≠ x.val := fun h => hy (Fin.ext h)
              simpa [Function.update_of_ne hy, BitArray.bit_set, hval] using hs y)
          refine ⟨s', ?_, hvirgin, fun i => ?_⟩
          · rw [List.foldlM_cons, hstep]
            exact hs'
          · rw [hbits, mem_hits_cons, BitArray.bit_set, Bool.or_eq_true, decide_eq_true_eq]
            tauto
        · have hstep : sanitizerCovTracePcGuard s x = some s := by
            simp only [sanitizerCovTracePcGuard, hx, if_true]
          obtain ⟨s', hs', hvirgin, hbits⟩ := ih s hs
          refine ⟨s', ?_, hvirgin, fun i => ?_⟩
          · rw [List.foldlM_cons, hstep]
            exact hs'
          · rw [hbits, mem_hits_cons]
            constructor
            · tauto
            · rintro ((rfl | h) | h)
              · exact Or.inr hbit
              · exact Or.inl h
              · exact Or.inr h
  refine key executed (sanitizerCovResetEdgeguards s) fun x => Or.inl ?_
  have := x.isLt
  exact if_pos (by omega)

/-! ### The instrumentation -/

/-- `SanCovInstrumentation::edge`. -/
def edge (bits : BitArray) (index : ℕ) : BitVec 8 := (bits (index / 8) >>> (index % 8)) &&& 1#8

/-- The edge is 1 if its bit is set.  -/
theorem edge_eq_one {bits : BitArray} {i : ℕ} : edge bits i = 1 ↔ bits.bit i = true := by
  rw [edge, BitArray.bit, BitVec.eq_of_getLsbD_eq_iff]
  constructor
  · intro h
    simpa using h 0 (by decide)
  · intro h j hj
    rcases Nat.eq_zero_or_pos j with rfl | hpos
    · simpa using h
    · have h1 : (1#8).getLsbD j = false := by
        interval_cases j <;> rfl
      rw [BitVec.getLsbD_and, h1, Bool.and_false]
      exact h1.symm

/-- `(cov_shm->num_edges + 7) / 8`. -/
def scannedBytes (n : ℕ) : ℕ := (n + 7) / 8

/-- Read a word of an array of `size` bytes. -/
def readWord (bits : BitArray) (size k : ℕ) : Option (BitVec 64) :=
  if 8 * k + 8 ≤ size then some (bits.word k) else none

/-- The loop over the 64 bits of a word with something new. -/
def scanBits (s : Bitmap n) (k : ℕ) (newOffsets : Finset UInt64) : Finset UInt64 :=
  (List.range 64).foldl (fun newOffsets j =>
    if edge s.edges (64 * k + j) = 1 ∧ edge s.virginBits (64 * k + j) = 1 then
      insert (UInt64.ofNat (64 * k + j)) newOffsets
    else newOffsets) newOffsets

/-- One round of the loop of `GetCoverage`. -/
def scanWord (s : Bitmap n) (newOffsets : Finset UInt64) (k : ℕ) : Option (Finset UInt64) := do
  let current ← readWord s.edges edgesSize k
  let virgin ← readWord s.virginBits virginSize k
  if current ≠ 0 ∧ current &&& virgin ≠ 0 then some (scanBits s k newOffsets)
  else some newOffsets

/-- The loop itself: `current` goes on as long as it is below `end`. -/
def scan (s : Bitmap n) : Option (Finset UInt64) :=
  (List.range ((scannedBytes n + 7) / 8)).foldlM (scanWord s) ∅

/-- **One word of the bitmap**: an offset is found if its bit is set among the edges and
still virgin, or if it was found in a word before.  -/
theorem mem_scanBits {s : Bitmap n} {k : ℕ} {newOffsets : Finset UInt64} (hk : 64 * k + 64 ≤ 2 ^ 64)
    {o : UInt64} :
    o ∈ scanBits s k newOffsets ↔ o ∈ newOffsets ∨ 64 * k ≤ o.toNat ∧ o.toNat < 64 * k + 64 ∧
      s.edges.bit o.toNat = true ∧ s.virginBits.bit o.toNat = true := by
  have key : ∀ m ≤ 64, o ∈ (List.range m).foldl (fun newOffsets j =>
      if edge s.edges (64 * k + j) = 1 ∧ edge s.virginBits (64 * k + j) = 1 then
        insert (UInt64.ofNat (64 * k + j)) newOffsets
      else newOffsets) newOffsets ↔ o ∈ newOffsets ∨ 64 * k ≤ o.toNat ∧ o.toNat < 64 * k + m ∧
        s.edges.bit o.toNat = true ∧ s.virginBits.bit o.toNat = true := by
    intro m hm
    induction m with
    | zero =>
        simp only [List.range_zero, List.foldl_nil]
        constructor
        · exact Or.inl
        · rintro (h | ⟨h₁, h₂, -⟩)
          · exact h
          · omega
    | succ m ih =>
        have hlt : 64 * k + m < 2 ^ 64 := by omega
        have heq : o = UInt64.ofNat (64 * k + m) ↔ o.toNat = 64 * k + m := by
          rw [← UInt64.toNat_inj, UInt64.toNat_ofNat_of_lt' hlt]
        rw [List.range_succ, List.foldl_append, List.foldl_cons, List.foldl_nil]
        split
        · rename_i hbits
          rw [edge_eq_one, edge_eq_one] at hbits
          rw [Finset.mem_insert, heq, ih (by omega)]
          constructor
          · rintro (h | h | ⟨h₁, h₂, h₃⟩)
            · exact Or.inr ⟨by omega, by omega, by rw [h]; exact hbits⟩
            · exact Or.inl h
            · exact Or.inr ⟨h₁, by omega, h₃⟩
          · rintro (h | ⟨h₁, h₂, h₃⟩)
            · exact Or.inr (Or.inl h)
            · by_cases h : o.toNat = 64 * k + m
              · exact Or.inl h
              · exact Or.inr (Or.inr ⟨h₁, by omega, h₃⟩)
        · rename_i hbits
          rw [edge_eq_one, edge_eq_one] at hbits
          rw [ih (by omega)]
          constructor
          · rintro (h | ⟨h₁, h₂, h₃⟩)
            · exact Or.inl h
            · exact Or.inr ⟨h₁, by omega, h₃⟩
          · rintro (h | ⟨h₁, h₂, h₃⟩)
            · exact Or.inl h
            · by_cases h : o.toNat = 64 * k + m
              · exact absurd (by rw [← h]; exact h₃) hbits
              · exact Or.inr ⟨h₁, by omega, h₃⟩
  exact key 64 le_rfl

/-- A round of the scan adds what is set in both arrays, if the word is there: the test of
the whole word only saves the test of its bits.  -/
theorem scanWord_spec (s : Bitmap n) (newOffsets : Finset UInt64) {k : ℕ}
    (hk : 8 * k + 8 ≤ edgesSize) :
    ∃ found, scanWord s newOffsets k = some found ∧ ∀ o : UInt64, o ∈ found ↔
      o ∈ newOffsets ∨ 64 * k ≤ o.toNat ∧ o.toNat < 64 * k + 64 ∧
        s.edges.bit o.toNat = true ∧ s.virginBits.bit o.toNat = true := by
  have hv : 8 * k + 8 ≤ virginSize := hk.trans (by decide)
  have hsmall : 64 * k + 64 ≤ 2 ^ 64 := by
    unfold edgesSize at hk
    omega
  simp only [scanWord, readWord, if_pos hk, if_pos hv, Option.bind_eq_bind, Option.bind_some]
  split
  · exact ⟨_, rfl, fun o => mem_scanBits hsmall⟩
  · rename_i hno
    refine ⟨_, rfl, fun o => ⟨Or.inl, ?_⟩⟩
    rintro (h | ⟨h₁, h₂, h₃, h₄⟩)
    · exact h
    · -- a common bit makes both tests succeed
      have hi : o.toNat = 64 * k + (o.toNat - 64 * k) := by omega
      have hand : s.edges.word k &&& s.virginBits.word k ≠ 0 :=
        (BitArray.word_and_ne_zero _ _ _).2
          ⟨o.toNat - 64 * k, by omega, by rwa [← hi], by rwa [← hi]⟩
      refine absurd ⟨fun hzero => hand ?_, hand⟩ hno
      rw [hzero]
      exact BitVec.zero_and

/-- **What is scanned** is what is set in both arrays, as far as whole words go.  The last
word may reach beyond the bytes that are cleared, and what an earlier run left there is
found with it.  -/
theorem scan_spec (s : Bitmap n) (hn : n ≤ 8388544) :
    ∃ found, scan s = some found ∧ ∀ o : UInt64, o ∈ found ↔
      o.toNat < 64 * ((scannedBytes n + 7) / 8) ∧
        s.edges.bit o.toNat = true ∧ s.virginBits.bit o.toNat = true := by
  have key : ∀ m, 8 * m ≤ edgesSize → ∃ found, (List.range m).foldlM (scanWord s) ∅ = some found ∧
      ∀ o : UInt64, o ∈ found ↔ o.toNat < 64 * m ∧
        s.edges.bit o.toNat = true ∧ s.virginBits.bit o.toNat = true := by
    intro m hm
    induction m with
    | zero => exact ⟨∅, rfl, by simp⟩
    | succ m ih =>
        obtain ⟨found, hfound, hmem⟩ := ih (by omega)
        obtain ⟨found', hfound', hmem'⟩ := scanWord_spec s found (k := m) (by omega)
        refine ⟨found', ?_, fun o => ?_⟩
        · rw [List.range_succ, List.foldlM_append, hfound]
          simpa using hfound'
        · rw [hmem', hmem]
          constructor
          · rintro (⟨h₁, h₂⟩ | ⟨h₁, h₂, h₃⟩)
            · exact ⟨by omega, h₂⟩
            · exact ⟨by omega, h₃⟩
          · rintro ⟨h₁, h₂⟩
            by_cases h : o.toNat < 64 * m
            · exact Or.inl ⟨h, h₂⟩
            · exact Or.inr ⟨by omega, by omega, h₂⟩
  refine key _ ?_
  unfold scannedBytes edgesSize
  omega

/-- With more guards the last word lies partly behind the mapping, so that the scan reads
what it must not, whatever the arrays hold.  -/
theorem scan_eq_none (s : Bitmap n) (hn : 8388544 < n) : scan s = none := by
  obtain ⟨d, hd⟩ : ∃ d, (scannedBytes n + 7) / 8 = 131071 + 1 + d :=
    ⟨(scannedBytes n + 7) / 8 - 131072, by unfold scannedBytes; omega⟩
  have hword : ∀ found, scanWord s found 131071 = none := by
    intro found
    have : ¬ 8 * 131071 + 8 ≤ edgesSize := by decide
    simp [scanWord, readWord, this]
  have hhead : (List.range (131071 + 1)).foldlM (scanWord s) ∅ = none := by
    rw [List.range_succ, List.foldlM_append]
    rcases (List.range 131071).foldlM (scanWord s) ∅ with _ | found
    · rfl
    · simp [hword]
  rw [scan, hd, List.range_add, List.foldlM_append, hhead]
  rfl

/-- `SanCovInstrumentation::ClearCoverage`. -/
def clearCoverage (s : Bitmap n) : Bitmap n :=
  { s with edges := s.edges.zero (scannedBytes n) }

section

variable [TinyInst]

/-- `SanCovInstrumentation::GetCoverage`: the coverage afterwards. -/
def getCoverage (s : Bitmap n) (coverage : Coverage) (clearAfter : Bool) :
    Option (Coverage × Bitmap n) := do
  let newOffsets ← scan s
  if newOffsets = ∅ then some (coverage, s)
  else
    let coverage :=
      match getModuleCoverage coverage moduleName with
      | none => coverage ++ [⟨moduleName, newOffsets⟩]
      | some i => coverage.modify i fun m => { m with offsets := m.offsets ∪ newOffsets }
    some (coverage, if clearAfter then clearCoverage s else s)

/-- The offsets that a coverage has for the target. -/
def targetOffsets (coverage : Coverage) : Finset UInt64 :=
  match getModuleCoverage coverage moduleName with
  | none => ∅
  | some i => (coverage[i]?.map ModuleCoverage.offsets).getD ∅

/-- `SanCovInstrumentation::IgnoreCoverage`; no result if it writes behind
`virgin_bits`. -/
def ignoreCoverage (s : Bitmap n) (coverage : Coverage) : Option (Bitmap n) :=
  let offsets := ((targetOffsets coverage).image UInt64.toNat).sort (· ≤ ·)
  if offsets.all fun o => decide (o / 8 < virginSize) then
    some { s with virginBits := offsets.foldl BitArray.clear s.virginBits }
  else none

/-- What happens to the bitmap in a session. -/
inductive Op (n : ℕ)
  /-- A run that executes these guards, and `GetCoverage(coverage, true)`. -/
  | run (executed : List (Fin n))
  /-- `IgnoreCoverage`. -/
  | ignore (coverage : Coverage)

/-- One operation; `reports` holds what `GetCoverage` returned so far. -/
def step (st : List Coverage × Bitmap n) : Op n → Option (List Coverage × Bitmap n)
  | .run executed => do
      let s ← runTarget st.2 executed
      let (coverage, s) ← getCoverage s [] true
      some (st.1 ++ [coverage], s)
  | .ignore coverage => do
      let s ← ignoreCoverage st.2 coverage
      some (st.1, s)

/-- A session from the start. -/
def execute (ops : List (Op n)) : Option (List Coverage × Bitmap n) :=
  ops.foldlM step ([], Bitmap.init n)

/-! ### What it should report -/

/-- The indices that a call of `IgnoreCoverage` ignores. -/
def ignoredBy (coverage : Coverage) : Set ℕ := {i | ∃ o ∈ targetOffsets coverage, o.toNat = i}

/-- The indices ignored in a session. -/
def ignored (ops : List (Op n)) : Set ℕ :=
  {i | ∃ coverage, Op.ignore coverage ∈ ops ∧ i ∈ ignoredBy coverage}

/-- The guards executed in a session. -/
def executedIn (ops : List (Op n)) : Set ℕ :=
  {i | ∃ executed, Op.run executed ∈ ops ∧ i ∈ hits executed}

/-- What should be reported after a run: the guards it executed that are not
ignored. -/
def report (executed : List (Fin n)) (ign : Set ℕ) : Set (Bytes × UInt64) :=
  {q | q.1 = moduleName ∧ q.2.toNat ∈ hits executed ∧ q.2.toNat ∉ ign}

/-- What should be reported in a session, where `ign` was ignored before it. -/
def expected (ign : Set ℕ) : List (Op n) → List (Set (Bytes × UInt64))
  | [] => []
  | .run executed :: ops => report executed ign :: expected ign ops
  | .ignore coverage :: ops => expected (ign ∪ ignoredBy coverage) ops

/-- A session without a fault, whose reports are what they should be. -/
def Exact (ops : List (Op n)) : Prop :=
  ∃ reports s, execute ops = some (reports, s) ∧ reports.map pairs = expected ∅ ops

/-! ### Sessions -/

/-- In an empty coverage no module is found.  -/
theorem getModuleCoverage_nil (name : Bytes) : getModuleCoverage [] name = none := by
  rcases h : getModuleCoverage [] name with _ | i
  · rfl
  · obtain ⟨m, hm, -⟩ := TinyInst.getModuleCoverage_some [] name i h
    simp at hm

/-- `GetCoverage(coverage, true)` reports what was scanned, and clears the bitmap
unless that is nothing. -/
theorem getCoverage_nil {s : Bitmap n} {found : Finset UInt64} (h : scan s = some found) :
    ∃ coverage, getCoverage s [] true =
        some (coverage, if found = ∅ then s else clearCoverage s) ∧
      pairs coverage = {q | q.1 = moduleName ∧ q.2 ∈ found} := by
  simp only [getCoverage, h, Option.bind_eq_bind, Option.bind_some, getModuleCoverage_nil, if_true]
  by_cases hempty : found = ∅
  · rw [if_pos hempty, if_pos hempty, hempty]
    exact ⟨[], rfl, by simp⟩
  · rw [if_neg hempty, if_neg hempty]
    refine ⟨_, rfl, ?_⟩
    ext q
    simp [mem_pairs, eq_comm]

/-- `IgnoreCoverage` clears the virgin bits of the offsets, if there are such, and leaves
the edges and the other virgin bits as they are.  -/
theorem ignoreCoverage_spec (s : Bitmap n) {coverage : Coverage}
    (h : ∀ i ∈ ignoredBy coverage, i < 8 * virginSize) :
    ∃ s', ignoreCoverage s coverage = some s' ∧ s'.edges = s.edges ∧
      ∀ i, s'.virginBits.bit i = true ↔ i ∉ ignoredBy coverage ∧ s.virginBits.bit i = true := by
  have hmem : ∀ i, i ∈ ((targetOffsets coverage).image UInt64.toNat).sort (· ≤ ·) ↔
      i ∈ ignoredBy coverage := fun i => by simp [ignoredBy]
  have hall : (((targetOffsets coverage).image UInt64.toNat).sort (· ≤ ·)).all
      (fun o => decide (o / 8 < virginSize)) = true := by
    rw [List.all_eq_true]
    intro i hi
    have := h i ((hmem i).1 hi)
    simp only [decide_eq_true_eq]
    omega
  refine ⟨_, if_pos hall, rfl, fun i => ?_⟩
  simp only [BitArray.bit_foldl_clear, hmem, Bool.and_eq_true, Bool.not_eq_true',
    decide_eq_false_iff_not]

/-- Otherwise it writes where there is no bit: the offset comes from a client and is
compared with no bound.  -/
theorem ignoreCoverage_eq_none (s : Bitmap n) {coverage : Coverage} {i : ℕ}
    (hi : i ∈ ignoredBy coverage) (h : 8 * virginSize ≤ i) : ignoreCoverage s coverage = none := by
  refine if_neg ?_
  rw [List.all_eq_true]
  intro hall
  have := hall i (by
    rw [Finset.mem_sort, Finset.mem_image]
    exact hi)
  simp only [decide_eq_true_eq] at this
  omega

omit [TinyInst] in
/-- The operations of one kind, after one more operation. -/
theorem exists_mem_snoc {α β : Type} {l : List β} {b : β} {f : α → β} {p : α → Prop} :
    (∃ a, f a ∈ l ++ [b] ∧ p a) ↔ (∃ a, f a ∈ l ∧ p a) ∨ ∃ a, b = f a ∧ p a := by
  simp only [List.mem_append, List.mem_singleton]
  constructor
  · rintro ⟨a, h | h, hp⟩
    · exact Or.inl ⟨a, h, hp⟩
    · exact Or.inr ⟨a, h.symm, hp⟩
  · rintro (⟨a, h, hp⟩ | ⟨a, h, hp⟩)
    · exact ⟨a, Or.inl h, hp⟩
    · exact ⟨a, Or.inr h.symm, hp⟩

/-- One operation more may ignore more offsets.  -/
theorem mem_ignored_snoc {ops : List (Op n)} {op : Op n} {i : ℕ} :
    i ∈ ignored (ops ++ [op]) ↔
      i ∈ ignored ops ∨ ∃ coverage, op = .ignore coverage ∧ i ∈ ignoredBy coverage := by
  simp only [ignored, Set.mem_ofPred_eq]
  exact exists_mem_snoc

omit [TinyInst] in
/-- One operation more may execute more edges.  -/
theorem mem_executedIn_snoc {ops : List (Op n)} {op : Op n} {i : ℕ} :
    i ∈ executedIn (ops ++ [op]) ↔
      i ∈ executedIn ops ∨ ∃ executed, op = .run executed ∧ i ∈ hits executed := by
  simp only [executedIn, Set.mem_ofPred_eq]
  exact exists_mem_snoc

/-- What one operation more is expected to report, with what was ignored before it: the
reports before it are what they were, and its own leaves out all that was ever ignored.  -/
theorem expected_snoc (ops : List (Op n)) (op : Op n) (ign : Set ℕ) :
    expected ign (ops ++ [op]) = expected ign ops ++ expected (ign ∪ ignored ops) [op] := by
  induction ops generalizing ign with
  | nil =>
      have : ignored ([] : List (Op n)) = ∅ := by
        ext i
        simp [ignored]
      rw [this, Set.union_empty]
      rfl
  | cons o ops ih =>
      cases o with
      | run executed =>
          have : ignored (.run executed :: ops) = ignored ops := by
            ext i
            simp [ignored]
          rw [this]
          exact congrArg (_ :: ·) (ih ign)
      | ignore coverage =>
          have : ignored (.ignore coverage :: ops) = ignoredBy coverage ∪ ignored ops := by
            ext i
            simp [ignored, or_and_right, exists_or]
          rw [this, ← Set.union_assoc]
          exact ih _

/-- **The bitmap after a session.**  In the bytes that are cleared only ignored
bits are left; the bits behind them are never cleared. -/
structure After (ops : List (Op n)) (s : Bitmap n) : Prop where
  virgin : ∀ i, s.virginBits.bit i = true ↔ i ∉ ignored ops
  cleared : ∀ i < 8 * scannedBytes n, s.edges.bit i = true → i ∈ ignored ops
  kept : ∀ i, 8 * scannedBytes n ≤ i → (s.edges.bit i = true ↔ i ∈ executedIn ops)

/-- The bitmap at the start is the one after no operations.  -/
theorem after_init : After [] (Bitmap.init n) where
  virgin i := by
    have hlt : i % 8 < 8 := Nat.mod_lt _ (by decide)
    have hbit : ∀ k < 8, (0xff#8).getLsbD k = true := by decide
    simp [ignored, BitArray.bit, Bitmap.init, hbit _ hlt]
  cleared i _ h := by simp [BitArray.bit, Bitmap.init] at h
  kept i _ := by simp [BitArray.bit, Bitmap.init, executedIn]

/-- A call of `IgnoreCoverage` clears the virgin bits of its offsets, which are among the
ignored ones from then on.  -/
theorem After.ignore {ops : List (Op n)} {s : Bitmap n} (h : After ops s) {coverage : Coverage}
    (hc : ∀ i ∈ ignoredBy coverage, i < 8 * virginSize) :
    ∃ s', ignoreCoverage s coverage = some s' ∧ After (ops ++ [.ignore coverage]) s' := by
  obtain ⟨s', hs', hedges, hvirgin⟩ := ignoreCoverage_spec s hc
  refine ⟨s', hs', fun i => ?_, fun i hi hbit => ?_, fun i hi => ?_⟩
  · rw [hvirgin, h.virgin, mem_ignored_snoc]
    simp only [Op.ignore.injEq, exists_eq_left']
    tauto
  · rw [hedges] at hbit
    exact mem_ignored_snoc.2 (Or.inl (h.cleared i hi hbit))
  · rw [hedges, h.kept i hi, mem_executedIn_snoc]
    simp

/-- Which bits a run leaves for the scan: its own, and those of earlier runs that were
not cleared. -/
theorem After.bit_left {ops : List (Op n)} {s s₁ : Bitmap n} (h : After ops s)
    {executed : List (Fin n)}
    (hbits : ∀ i, s₁.edges.bit i = true ↔ i ∈ hits executed ∨ s.edges.bit i = true) {i : ℕ}
    (hi : i ∉ ignored ops) : s₁.edges.bit i = true ↔
      i ∈ hits executed ∨ 8 * scannedBytes n ≤ i ∧ i ∈ executedIn ops := by
  rw [hbits]
  refine or_congr_right ?_
  by_cases hle : 8 * scannedBytes n ≤ i
  · rw [h.kept i hle, and_iff_right hle]
  · exact iff_of_false (fun hb => hi (h.cleared i (by omega) hb)) fun hb => hle hb.1

/-- Behind the bytes that are cleared are the bits of all runs: a run sets what it executes,
and nothing takes it away.  -/
theorem After.bit_kept {ops : List (Op n)} {s s₁ : Bitmap n} (h : After ops s)
    {executed : List (Fin n)}
    (hbits : ∀ i, s₁.edges.bit i = true ↔ i ∈ hits executed ∨ s.edges.bit i = true) (i : ℕ)
    (hi : 8 * scannedBytes n ≤ i) :
    s₁.edges.bit i = true ↔ i ∈ executedIn (ops ++ [Op.run executed]) := by
  rw [hbits, h.kept i hi, mem_executedIn_snoc]
  simp only [Op.run.injEq, exists_eq_left']
  tauto

/-- **A run and its report.**  What is reported are the guards of the run as far
as they are scanned, and those of earlier runs that are scanned but not cleared. -/
theorem After.run (hn : n < maxEdges) (hmapped : n ≤ 8388544) {ops : List (Op n)} {s : Bitmap n}
    (h : After ops s) (executed : List (Fin n)) :
    ∃ s₁ coverage s', runTarget s executed = some s₁ ∧
      getCoverage s₁ [] true = some (coverage, s') ∧ After (ops ++ [.run executed]) s' ∧
      pairs coverage = {q | q.1 = moduleName ∧ q.2.toNat < 64 * ((scannedBytes n + 7) / 8) ∧
        (q.2.toNat ∈ hits executed ∨
          8 * scannedBytes n ≤ q.2.toNat ∧ q.2.toNat ∈ executedIn ops) ∧
        q.2.toNat ∉ ignored ops} := by
  obtain ⟨s₁, hs₁, hvirgin, hbits⟩ := runTarget_spec hn s executed
  obtain ⟨found, hfound, hmem⟩ := scan_spec s₁ hmapped
  obtain ⟨coverage, hcoverage, hpairs⟩ := getCoverage_nil hfound
  have hign : ∀ i, i ∈ ignored (ops ++ [Op.run executed]) ↔ i ∈ ignored ops := by
    intro i
    rw [mem_ignored_snoc]
    simp
  have hkept := h.bit_kept hbits
  refine ⟨s₁, coverage, _, hs₁, hcoverage, ?_, ?_⟩
  · by_cases hempty : found = ∅
    · -- nothing was found, so nothing was cleared: all that is set is ignored
      rw [if_pos hempty]
      refine ⟨fun i => by rw [hvirgin, h.virgin, hign], fun i hi hbit => ?_, hkept⟩
      by_contra hno
      rw [hign] at hno
      have hlt : i < 2 ^ 64 := by
        unfold scannedBytes at hi
        omega
      have hi' : UInt64.ofNat i ∈ found := by
        rw [hmem, UInt64.toNat_ofNat_of_lt' hlt]
        exact ⟨by omega, hbit, by rwa [hvirgin, h.virgin]⟩
      rw [hempty] at hi'
      exact absurd hi' (Finset.notMem_empty _)
    · rw [if_neg hempty]
      refine ⟨fun i => ?_, fun i hi hbit => ?_, fun i hi => ?_⟩
      · show s₁.virginBits.bit i = true ↔ _
        rw [hvirgin, h.virgin, hign]
      · have hlt : ¬ 8 * scannedBytes n ≤ i := by omega
        rw [clearCoverage, BitArray.bit_zero, decide_eq_false hlt] at hbit
        cases hbit
      · rw [clearCoverage, BitArray.bit_zero, decide_eq_true hi, Bool.true_and]
        exact hkept i hi
  · rw [hpairs]
    ext q
    simp only [Set.mem_ofPred_eq, hmem, hvirgin, h.virgin]
    constructor
    · rintro ⟨hname, hlt, hbit, hno⟩
      exact ⟨hname, hlt, (h.bit_left hbits hno).1 hbit, hno⟩
    · rintro ⟨hname, hlt, hbit, hno⟩
      exact ⟨hname, hlt, (h.bit_left hbits hno).2 hbit, hno⟩

/-! ### When the reports are exact -/

/-- **The condition on a run.**  With a number of guards that is not a multiple of
8 there is none.  Otherwise, unless the last guard is ignored: if the number is a
multiple of 64, the run does not execute it; if not, and an earlier run executed
it, this one does too. -/
def LastGuard (before : List (Op n)) (executed : List (Fin n)) : Prop :=
  8 ∣ n → n ∉ ignored before →
    if 64 ∣ n then n ∉ hits executed else n ∈ executedIn before → n ∈ hits executed

/-- **The condition on a session.** -/
structure InScope (ops : List (Op n)) : Prop where
  /-- What is ignored has a virgin bit. -/
  virgin : ∀ coverage, Op.ignore coverage ∈ ops → ∀ i ∈ ignoredBy coverage, i < 8 * virginSize
  /-- The words that are scanned after a run are inside the mapping. -/
  mapped : ∀ executed, Op.run executed ∈ ops → n ≤ 8388544
  last : ∀ before executed rest, ops = before ++ .run executed :: rest → LastGuard before executed

/-- The condition, one operation at a time: a run must not have too many guards and must
meet `LastGuard`, and what is ignored must have a virgin bit.  -/
theorem inScope_snoc {ops : List (Op n)} {op : Op n} :
    InScope (ops ++ [op]) ↔ InScope ops ∧
      match op with
      | .run executed => n ≤ 8388544 ∧ LastGuard ops executed
      | .ignore coverage => ∀ i ∈ ignoredBy coverage, i < 8 * virginSize := by
  constructor
  · rintro ⟨hvirgin, hmapped, hlast⟩
    refine ⟨⟨fun c hc => hvirgin c (List.mem_append_left _ hc),
      fun e he => hmapped e (List.mem_append_left _ he), fun before e rest h => ?_⟩, ?_⟩
    · exact hlast before e (rest ++ [op]) (trace_split_snoc.2 (Or.inr ⟨rest, rfl, h⟩))
    · cases op with
      | run executed =>
          exact ⟨hmapped executed (by simp), hlast ops executed [] rfl⟩
      | ignore coverage => exact hvirgin coverage (by simp)
  · rintro ⟨⟨hvirgin, hmapped, hlast⟩, hop⟩
    refine ⟨fun c hc => ?_, fun e he => ?_, fun before e rest h => ?_⟩
    · rcases List.mem_append.1 hc with hc | hc
      · exact hvirgin c hc
      · obtain rfl := List.mem_singleton.1 hc
        exact hop
    · rcases List.mem_append.1 he with he | he
      · exact hmapped e he
      · obtain rfl := List.mem_singleton.1 he
        exact hop.1
    · rcases trace_split_snoc.1 h with ⟨rfl, rfl, -⟩ | ⟨rest', -, h'⟩
      · exact hop.2
      · exact hlast before e rest' h'

/-- **One report.** It is what it should be exactly when the last guard is as `LastGuard`
says.  With a number of guards that 8 divides the bit of the last one is not cleared, so
that an execution shows in later reports, too; if 64 divides it, the bit is not even
scanned.  -/
theorem report_eq_iff (hn : n < maxEdges) (before : List (Op n)) (executed : List (Fin n)) :
    {q : Bytes × UInt64 | q.1 = moduleName ∧ q.2.toNat < 64 * ((scannedBytes n + 7) / 8) ∧
        (q.2.toNat ∈ hits executed ∨
          8 * scannedBytes n ≤ q.2.toNat ∧ q.2.toNat ∈ executedIn before) ∧
        q.2.toNat ∉ ignored before} = report executed (ignored before) ↔
      LastGuard before executed := by
  have hle : ∀ i ∈ executedIn before, i ≤ n := by
    rintro i ⟨e, -, hi⟩
    exact (le_of_mem_hits hi).2
  constructor
  · intro heq hdvd hign
    -- ask both sides about the last guard
    have hlt : n < 2 ^ 64 := by
      unfold maxEdges at hn
      omega
    have hq := Set.ext_iff.1 heq (moduleName, UInt64.ofNat n)
    simp only [report, Set.mem_ofPred_eq, UInt64.toNat_ofNat_of_lt' hlt, true_and, hign,
      not_false_eq_true, and_true] at hq
    unfold scannedBytes at hq
    split
    · rename_i h64
      intro hhit
      have := (hq.2 hhit).1
      omega
    · rename_i h64
      intro hbefore
      exact hq.1 ⟨by omega, Or.inr ⟨by omega, hbefore⟩⟩
  · intro hlast
    ext q
    simp only [report, Set.mem_ofPred_eq]
    unfold scannedBytes
    constructor
    · rintro ⟨hname, hlt, hhit | ⟨hge, hbefore⟩, hign⟩
      · exact ⟨hname, hhit, hign⟩
      · -- only the last guard is kept, and only when it starts a byte of its own
        have hqn : q.2.toNat = n := by
          have := hle _ hbefore
          omega
        rw [hqn] at hlt hge hbefore hign ⊢
        have h := hlast (by omega) hign
        rw [if_neg (by omega)] at h
        exact ⟨hname, h hbefore, hign⟩
    · rintro ⟨hname, hhit, hign⟩
      refine ⟨hname, ?_, Or.inl hhit, hign⟩
      by_contra hge
      have hqn : q.2.toNat = n := by
        have := (le_of_mem_hits hhit).2
        omega
      rw [hqn] at hge hhit hign
      have h := hlast (by omega) hign
      rw [if_pos (by omega)] at h
      exact h hhit

/-- One operation more is executed on what the others leave.  -/
theorem execute_snoc (ops : List (Op n)) (op : Op n) :
    execute (ops ++ [op]) = (execute ops).bind fun st => step st op := by
  rw [execute, List.foldlM_append]
  simp [execute]

/-- The bitmap after a session that ran to its end: in the bytes that are cleared no edge is
left but ignored ones, behind them every edge that was ever executed, and the virgin bits
are those that were not ignored.  -/
theorem after_of_execute (hn : n < maxEdges) {ops : List (Op n)} {reports : List Coverage}
    {s : Bitmap n} (h : execute ops = some (reports, s)) : After ops s := by
  induction ops using List.reverseRecOn generalizing reports s with
  | nil =>
      cases h
      exact after_init
  | append_singleton ops op ih =>
      rw [execute_snoc] at h
      obtain ⟨⟨reports₀, s₀⟩, hops, hstep⟩ := Option.bind_eq_some_iff.1 h
      have hafter := ih hops
      cases op with
      | run executed =>
          by_cases hmapped : n ≤ 8388544
          · obtain ⟨s₁, coverage, s', hrun, hget, hafter', -⟩ := hafter.run hn hmapped executed
            simp only [step, hrun, hget, Option.bind_eq_bind, Option.bind_some] at hstep
            cases hstep
            exact hafter'
          · obtain ⟨s₁, hs₁, -⟩ := runTarget_spec hn s₀ executed
            simp [step, hs₁, getCoverage, scan_eq_none s₁ (by omega)] at hstep
      | ignore coverage =>
          by_cases hin : ∀ i ∈ ignoredBy coverage, i < 8 * virginSize
          · obtain ⟨s', hs', hafter'⟩ := hafter.ignore hin
            simp only [step, hs', Option.bind_eq_bind, Option.bind_some] at hstep
            cases hstep
            exact hafter'
          · push Not at hin
            obtain ⟨i, hi, hge⟩ := hin
            simp [step, ignoreCoverage_eq_none s₀ hi hge] at hstep

/-- **When the bitmap is exact.**  For every number of guards below `MAX_EDGES` and
every session: what is reported after each run are the guards that the run
executed and that are not ignored, if and only if what is ignored has a virgin
bit, nothing runs with more than 8388544 guards, and every run is as `LastGuard`
says. -/
theorem getCoverage_exact_iff (hn : n < maxEdges) (ops : List (Op n)) :
    Exact ops ↔ InScope ops := by
  induction ops using List.reverseRecOn with
  | nil =>
      refine iff_of_true ⟨[], _, rfl, rfl⟩ ⟨by simp, by simp, ?_⟩
      intro before executed rest h
      simp at h
  | append_singleton ops op ih =>
      rw [inScope_snoc, ← ih]
      constructor
      · rintro ⟨reports, s, hexec, hreports⟩
        rw [execute_snoc] at hexec
        obtain ⟨⟨reports₀, s₀⟩, hops, hstep⟩ := Option.bind_eq_some_iff.1 hexec
        have hafter := after_of_execute hn hops
        rw [expected_snoc, Set.empty_union] at hreports
        cases op with
        | run executed =>
            have hmapped : n ≤ 8388544 := by
              by_contra hgt
              obtain ⟨s₁, hs₁, -⟩ := runTarget_spec hn s₀ executed
              simp [step, hs₁, getCoverage, scan_eq_none s₁ (by omega)] at hstep
            obtain ⟨s₁, coverage, s', hrun, hget, -, hpairs⟩ := hafter.run hn hmapped executed
            simp only [step, hrun, hget, Option.bind_eq_bind, Option.bind_some] at hstep
            cases hstep
            rw [List.map_append] at hreports
            obtain ⟨hbefore, hlast⟩ := List.append_inj' hreports rfl
            refine ⟨⟨reports₀, s₀, hops, hbefore⟩, hmapped, ?_⟩
            rw [← report_eq_iff hn, ← hpairs]
            simpa [expected] using hlast
        | ignore coverage =>
            have hin : ∀ i ∈ ignoredBy coverage, i < 8 * virginSize := by
              by_contra hout
              push Not at hout
              obtain ⟨i, hi, hge⟩ := hout
              simp [step, ignoreCoverage_eq_none s₀ hi hge] at hstep
            obtain ⟨s', hs', -⟩ := hafter.ignore hin
            simp only [step, hs', Option.bind_eq_bind, Option.bind_some] at hstep
            cases hstep
            exact ⟨⟨reports, s₀, hops, by simpa [expected] using hreports⟩, hin⟩
      · rintro ⟨⟨reports, s, hops, hreports⟩, hop⟩
        have hafter := after_of_execute hn hops
        rw [Exact, execute_snoc, hops, Option.bind_some, expected_snoc, Set.empty_union, ← hreports]
        cases op with
        | run executed =>
            obtain ⟨hmapped, hlast⟩ := hop
            obtain ⟨s₁, coverage, s', hrun, hget, -, hpairs⟩ := hafter.run hn hmapped executed
            refine ⟨reports ++ [coverage], s', ?_, ?_⟩
            · simp only [step, hrun, hget, Option.bind_eq_bind, Option.bind_some]
            · rw [List.map_append, List.map_singleton, hpairs, (report_eq_iff hn _ _).2 hlast]
              rfl
        | ignore coverage =>
            obtain ⟨s', hs', -⟩ := hafter.ignore hop
            refine ⟨reports, s', ?_, ?_⟩
            · simp only [step, hs', Option.bind_eq_bind, Option.bind_some]
            · simp [expected]

end

/-! ### Eight guards -/

section

attribute [local instance] listTinyInst

/-- Two runs: the first executes the last of eight guards, the second nothing. -/
def lastOfEight : List (Op 8) := [.run [7], .run []]

/-- The guard is reported after both. -/
theorem execute_lastOfEight :
    (execute lastOfEight).map Prod.fst =
      some [[⟨moduleName, {8}⟩], [⟨moduleName, {8}⟩]] := by
  decide +kernel

/-- **The last guard of eight is left over from the first run.** The bit of guard 8 is in
the second byte, which is not cleared with a count of 8 guards, but is in the word that is
scanned; so the second report has it although the second run did not execute it.  -/
theorem not_exact_lastOfEight : ¬ Exact lastOfEight := by
  rintro ⟨reports, s, hexec, hreports⟩
  have hrep := execute_lastOfEight
  rw [hexec, Option.map_some, Option.some.injEq] at hrep
  rw [show reports = _ from hrep] at hreports
  have hsecond := (List.cons.inj (List.cons.inj hreports).2).1
  have hmem := (Set.ext_iff.1 hsecond (moduleName, 8)).1 (by simp [mem_pairs])
  simp [report, hits] at hmem

/-- With nine guards the last one is cleared, and the same two runs are in scope: each
report has what its own run has executed.  -/
theorem getCoverage_exact_iff_nine : Exact (n := 9) [.run [8], .run []] :=
  (getCoverage_exact_iff (by decide) _).2
    ⟨by simp, by simp, fun _ _ _ _ h => absurd h (by decide)⟩

end

end SanCov
end Jackalope
