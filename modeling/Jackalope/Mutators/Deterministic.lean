/-
# Which bytes the deterministic mutators go through

`BaseDeterministicContext` (`mutator.h`, lines 564-585, `mutator.cpp`, lines 395-463)
keeps regions of positions.  `AddHotOffset` puts the window around a hot offset into
them, and `GetNextByteToMutate` goes through the regions, `max_progress` values for each
position.

A window that begins before a region is cut off at that region.  The rest of the window
is not lost: from its start on, 23 positions of every region but one that starts at 0 are
in some region (`Filled`), and no window is longer.  A window that begins in a region
extends the region, and that is not cut off at the region behind.
-/

import Jackalope.Foundation.Run
import Jackalope.Mutators.Contexts

namespace Jackalope
namespace Mutators

open Foundation

/-- `BaseDeterministicContext`. -/
structure BaseDeterministicContext where
  regions : List MutateRegion
  curRegion : ℕ
  deriving DecidableEq

/-- The context of a new sample. -/
def BaseDeterministicContext.empty : BaseDeterministicContext := ⟨[], 0⟩

/-! ### `AddHotOffset` -/

/-- `newregion_start`. -/
def newRegionStart (offset : ℕ) : ℕ := if offset < 3 then 0 else offset - 3

/-- `newregion_end`, a `size_t`. -/
def newRegionEnd (offset : ℕ) : ℕ := (offset + 20) % 2 ^ 64

/-- The loop of `AddHotOffset` over the regions. -/
def addRegion (newStart newEnd : ℕ) : List MutateRegion → List MutateRegion
  | [] => [⟨newStart, newEnd, newStart, 0⟩]
  | r :: rs =>
      if newStart < r.regionStart then
        ⟨newStart, if r.regionStart > newEnd then newEnd else r.regionStart, newStart, 0⟩ :: r :: rs
      else if newStart ≤ r.regionEnd then
        if newEnd ≤ r.regionEnd then r :: rs
        else { r with regionEnd := newEnd } :: rs
      else r :: addRegion newStart newEnd rs

/-- `AddHotOffset`; in any case the scan is restarted. -/
def BaseDeterministicContext.addHotOffset (context : BaseDeterministicContext) (offset : ℕ) :
    BaseDeterministicContext :=
  ⟨addRegion (newRegionStart offset) (newRegionEnd offset) context.regions, 0⟩

/-- **What happens to the regions.**  Those before end before the window. -/
inductive AddsRegion (newStart newEnd : ℕ) : List MutateRegion → List MutateRegion → Prop
  | appended {rs} : (∀ x ∈ rs, x.regionStart ≤ newStart ∧ x.regionEnd < newStart) →
      AddsRegion newStart newEnd rs (rs ++ [⟨newStart, newEnd, newStart, 0⟩])
  | inserted {pre r post} : (∀ x ∈ pre, x.regionStart ≤ newStart ∧ x.regionEnd < newStart) →
      newStart < r.regionStart → AddsRegion newStart newEnd (pre ++ r :: post)
        (pre ++ ⟨newStart, min newEnd r.regionStart, newStart, 0⟩ :: r :: post)
  | absorbed {pre r post} : (∀ x ∈ pre, x.regionStart ≤ newStart ∧ x.regionEnd < newStart) →
      r.regionStart ≤ newStart → newStart ≤ r.regionEnd → newEnd ≤ r.regionEnd →
      AddsRegion newStart newEnd (pre ++ r :: post) (pre ++ r :: post)
  | extended {pre r post} : (∀ x ∈ pre, x.regionStart ≤ newStart ∧ x.regionEnd < newStart) →
      r.regionStart ≤ newStart → newStart ≤ r.regionEnd → r.regionEnd < newEnd →
      AddsRegion newStart newEnd (pre ++ r :: post) (pre ++ { r with regionEnd := newEnd } :: post)

/-- **What the loop of `AddHotOffset` does is one of its four cases.** The induction is over
the regions that are left; those that the loop has passed end before the window begins.  -/
theorem addsRegion_addRegion (newStart newEnd : ℕ) (rs : List MutateRegion) :
    AddsRegion newStart newEnd rs (addRegion newStart newEnd rs) := by
  -- the regions before are the ones the loop has passed
  have key : ∀ (rs pre : List MutateRegion),
      (∀ x ∈ pre, x.regionStart ≤ newStart ∧ x.regionEnd < newStart) →
      AddsRegion newStart newEnd (pre ++ rs) (pre ++ addRegion newStart newEnd rs) := by
    intro rs
    induction rs with
    | nil =>
        intro pre hpre
        rw [addRegion, List.append_nil]
        exact .appended hpre
    | cons r rs ih =>
        intro pre hpre
        rw [addRegion]
        split
        · rename_i hlt
          have hmin : (if r.regionStart > newEnd then newEnd else r.regionStart) =
              min newEnd r.regionStart := by
            split <;> omega
          rw [hmin]
          exact .inserted hpre hlt
        rename_i hstart
        split
        · rename_i hend
          split
          · rename_i hle
            exact .absorbed hpre (by omega) hend hle
          · exact .extended hpre (by omega) hend (by omega)
        · have hpre' : ∀ x ∈ pre ++ [r], x.regionStart ≤ newStart ∧ x.regionEnd < newStart := by
            intro x hx
            rcases List.mem_append.1 hx with hx | hx
            · exact hpre x hx
            · rw [List.mem_singleton.1 hx]
              omega
          have := ih (pre ++ [r]) hpre'
          rwa [List.append_assoc, List.append_assoc] at this
  exact key rs [] fun _ h => absurd h List.not_mem_nil

/-! ### `GetNextByteToMutate` -/

/-- A region with all values of a position used goes on to the next position. -/
def MutateRegion.advance (maxProgress : ℕ) (r : MutateRegion) : MutateRegion :=
  if r.curProgress ≥ maxProgress then { r with curProgress := 0, cur := r.cur + 1 } else r

/-- The loop of `GetNextByteToMutate` over the regions from the current one on: the
regions, by how many `cur_region` has gone on, and the position with its value. -/
def scan (maxProgress : ℕ) : List MutateRegion → List MutateRegion × ℕ × Option (ℕ × ℕ)
  | [] => ([], 0, none)
  | r :: rs =>
      let r := r.advance maxProgress
      if r.cur ≥ r.regionEnd then
        let (rs, skipped, found) := scan maxProgress rs
        (r :: rs, skipped + 1, found)
      else ({ r with curProgress := r.curProgress + 1 } :: rs, 0, some (r.cur, r.curProgress))

/-- `GetNextByteToMutate`; none is the answer `false`. -/
def BaseDeterministicContext.getNextByteToMutate (context : BaseDeterministicContext)
    (maxProgress : ℕ) : Option (ℕ × ℕ) × BaseDeterministicContext :=
  let (regions, skipped, found) := scan maxProgress (context.regions.drop context.curRegion)
  (found, ⟨context.regions.take context.curRegion ++ regions, context.curRegion + skipped⟩)

/-- **Where the loop stops.** Either all regions are exhausted and have moved to their ends,
or the loop stops at the first that is not, whose next pair it returns; the regions behind
that one are not looked at.  -/
theorem scan_cases (maxProgress : ℕ) (rs : List MutateRegion) :
    scan maxProgress rs = (rs.map (·.advance maxProgress), rs.length, none) ∧
        (∀ x ∈ rs, (x.advance maxProgress).regionEnd ≤ (x.advance maxProgress).cur) ∨
      ∃ pre r post, rs = pre ++ r :: post ∧
        (∀ x ∈ pre, (x.advance maxProgress).regionEnd ≤ (x.advance maxProgress).cur) ∧
        (r.advance maxProgress).cur < (r.advance maxProgress).regionEnd ∧
        scan maxProgress rs = (pre.map (·.advance maxProgress) ++
            { r.advance maxProgress with curProgress := (r.advance maxProgress).curProgress + 1 } :: post,
          pre.length, some ((r.advance maxProgress).cur, (r.advance maxProgress).curProgress)) := by
  induction rs with
  | nil => exact Or.inl ⟨rfl, fun _ h => absurd h List.not_mem_nil⟩
  | cons r rs ih =>
      rw [scan]
      by_cases hdone : (r.advance maxProgress).cur ≥ (r.advance maxProgress).regionEnd
      · simp only [if_pos hdone]
        rcases ih with ⟨hscan, hall⟩ | ⟨pre, r', post, rfl, hpre, hr', hscan⟩
        · rw [hscan]
          exact Or.inl ⟨rfl, List.forall_mem_cons.2 ⟨hdone, hall⟩⟩
        · rw [hscan]
          exact Or.inr ⟨r :: pre, r', post, rfl, List.forall_mem_cons.2 ⟨hdone, hpre⟩, hr', rfl⟩
      · simp only [if_neg hdone]
        exact Or.inr ⟨[], r, rs, rfl, fun _ h => absurd h List.not_mem_nil, by omega, rfl⟩

/-! ### Calls -/

/-- A call, with what it returned. -/
inductive ScanEvent
  | addHotOffset (offset : ℕ)
  | getNextByteToMutate (found : Option (ℕ × ℕ))
  deriving DecidableEq

/-- One call, with a `max_progress` from the set. -/
inductive ScanStep (allowed : Set ℕ) :
    BaseDeterministicContext → ScanEvent → BaseDeterministicContext → Prop
  | addHotOffset {context} (offset : ℕ) :
      ScanStep allowed context (.addHotOffset offset) (context.addHotOffset offset)
  | getNextByteToMutate {context maxProgress} : maxProgress ∈ allowed →
      ScanStep allowed context
        (.getNextByteToMutate (context.getNextByteToMutate maxProgress).1)
        (context.getNextByteToMutate maxProgress).2

/-! ### What has been returned -/

/-- The pair is behind the cursor of the region. -/
def MutateRegion.Behind (r : MutateRegion) (pos progress : ℕ) : Prop :=
  r.regionStart ≤ pos ∧ (pos < r.cur ∨ pos = r.cur ∧ progress < r.curProgress)

/-- The cursor is in the region, or the region has not been begun. -/
structure MutateRegion.Sound (maxProgress : ℕ) (r : MutateRegion) : Prop where
  start_le : r.regionStart ≤ r.cur
  cur : r.cur ≤ r.regionEnd ∨ r.cur = r.regionStart ∧ r.curProgress = 0
  progress_le : r.curProgress ≤ maxProgress
  pending : 0 < r.curProgress → r.cur < r.regionEnd

variable {maxProgress newStart newEnd pos progress : ℕ} {r : MutateRegion} {rs rs' : List MutateRegion}

/-- What is behind the cursor of a region is in the region.  -/
theorem MutateRegion.Sound.lt_end (h : r.Sound maxProgress) (hb : r.Behind pos progress) :
    pos < r.regionEnd := by
  obtain ⟨hstart, hlt | ⟨heq, hlt⟩⟩ := hb
  · rcases h.cur with hcur | ⟨hcur, -⟩ <;> omega
  · have := h.pending (by omega)
    omega

/-- The beginning of a region stays where it is.  -/
@[simp] theorem regionStart_advance : (r.advance maxProgress).regionStart = r.regionStart := by
  unfold MutateRegion.advance
  split <;> rfl

/-- So does its end.  -/
@[simp] theorem regionEnd_advance : (r.advance maxProgress).regionEnd = r.regionEnd := by
  unfold MutateRegion.advance
  split <;> rfl

/-- Going on to the next position passes no pair: the step is taken only when all values of
the position before have been returned.  -/
theorem behind_advance (h : r.Sound maxProgress)
    (hprogress : progress < maxProgress) :
    (r.advance maxProgress).Behind pos progress ↔ r.Behind pos progress := by
  have hle := h.progress_le
  unfold MutateRegion.advance
  split
  · unfold MutateRegion.Behind
    constructor
    · rintro ⟨hstart, hlt | ⟨heq, hlt⟩⟩
      · exact ⟨hstart, by dsimp only at hlt; omega⟩
      · exact absurd hlt (Nat.not_lt_zero _)
    · rintro ⟨hstart, hlt⟩
      exact ⟨hstart, Or.inl (by dsimp only; omega)⟩
  · exact Iff.rfl

/-- The cursor of a sound region goes on to the next position when all values of this one
are used, and then has a value left.  -/
theorem MutateRegion.Sound.advance (hM : 1 ≤ maxProgress) (h : r.Sound maxProgress) :
    (r.advance maxProgress).Sound maxProgress ∧ (r.advance maxProgress).curProgress < maxProgress := by
  unfold MutateRegion.advance
  split
  · rename_i hge
    have hlt := h.pending (by omega)
    have hstart := h.start_le
    exact ⟨⟨by dsimp only; omega, Or.inl hlt, Nat.zero_le _, fun h => absurd h (lt_irrefl 0)⟩, hM⟩
  · exact ⟨h, by omega⟩

/-- One value more. -/
theorem MutateRegion.Sound.next (h : r.Sound maxProgress) (hlt : r.cur < r.regionEnd)
    (hprogress : r.curProgress < maxProgress) :
    { r with curProgress := r.curProgress + 1 }.Sound maxProgress :=
  ⟨h.start_le, Or.inl hlt.le, hprogress, fun _ => hlt⟩

/-- Returning a pair puts it behind the cursor, and nothing else: the cursor goes on by one
value at the same position.  -/
theorem behind_next (h : r.Sound maxProgress) :
    { r with curProgress := r.curProgress + 1 }.Behind pos progress ↔
      r.Behind pos progress ∨ pos = r.cur ∧ progress = r.curProgress := by
  have hstart := h.start_le
  unfold MutateRegion.Behind
  dsimp only
  constructor
  · rintro ⟨h₁, h₂⟩
    omega
  · rintro (⟨h₁, h₂⟩ | ⟨h₁, h₂⟩)
    · exact ⟨h₁, by omega⟩
    · exact ⟨by omega, by omega⟩

/-- Some of the regions have gone on to the next position. -/
def Advanced (maxProgress : ℕ) : List MutateRegion → List MutateRegion → Prop :=
  List.Forall₂ fun r r' => r' = r ∨ r' = r.advance maxProgress

/-- All regions may have gone on to their next position.  -/
theorem Advanced.map (rs : List MutateRegion) :
    Advanced maxProgress rs (rs.map (·.advance maxProgress)) := by
  induction rs with
  | nil => exact .nil
  | cons r rs ih => exact .cons (Or.inr rfl) ih

/-- Or none of them.  -/
theorem Advanced.refl (rs : List MutateRegion) : Advanced maxProgress rs rs :=
  List.forall₂_same.2 fun _ _ => Or.inl rfl

/-- Where the regions begin and end. -/
def bounds (rs : List MutateRegion) : List (ℕ × ℕ) := rs.map fun r => (r.regionStart, r.regionEnd)

/-- Regions that have gone on have their bounds as before; only the cursors have moved.  -/
theorem Advanced.bounds_eq (h : Advanced maxProgress rs rs') : bounds rs' = bounds rs := by
  induction h with
  | nil => rfl
  | cons hr _ ih =>
      rw [bounds, bounds, List.map_cons, List.map_cons, ← bounds, ← bounds, ih]
      rcases hr with rfl | rfl
      · rfl
      · rw [regionStart_advance, regionEnd_advance]

/-- **`GetNextByteToMutate` moves cursors only**, so what the regions cover is a matter of
`AddHotOffset` alone.  -/
theorem bounds_scan (maxProgress : ℕ) (rs : List MutateRegion) :
    bounds (scan maxProgress rs).1 = bounds rs := by
  induction rs with
  | nil => rfl
  | cons r rs ih =>
      rw [scan]
      dsimp only
      split
      · rw [bounds, bounds, List.map_cons, List.map_cons, ← bounds, ← bounds, ih, regionStart_advance,
          regionEnd_advance]
      · rw [bounds, bounds, List.map_cons, List.map_cons, regionStart_advance, regionEnd_advance]

/-- `GetNextByteToMutate` leaves the regions where they are, so only a hot offset can change
what they cover.  -/
theorem bounds_getNextByteToMutate (maxProgress : ℕ) (context : BaseDeterministicContext) :
    bounds (context.getNextByteToMutate maxProgress).2.regions = bounds context.regions := by
  have hsplit : bounds (context.regions.take context.curRegion) ++
      bounds (context.regions.drop context.curRegion) = bounds context.regions := by
    rw [bounds, bounds, ← List.map_append, List.take_append_drop, ← bounds]
  rw [← hsplit, ← bounds_scan maxProgress (context.regions.drop _), bounds, bounds, bounds,
    ← List.map_append]
  rfl

/-- Regions that have gone on are sound: the value is one that is to be tried, and the
cursor is between the bounds.  -/
theorem Advanced.sound (hM : 1 ≤ maxProgress) (h : Advanced maxProgress rs rs')
    (hs : ∀ r ∈ rs, r.Sound maxProgress) : ∀ r ∈ rs', r.Sound maxProgress := by
  induction h with
  | nil => exact hs
  | cons hr _ ih =>
      obtain ⟨hsr, hsrs⟩ := List.forall_mem_cons.1 hs
      refine List.forall_mem_cons.2 ⟨?_, ih hsrs⟩
      rcases hr with rfl | rfl
      · exact hsr
      · exact (hsr.advance hM).1

/-- Going on to the next position puts nothing new behind a cursor: all values of the
position were behind it.  -/
theorem Advanced.behind (h : Advanced maxProgress rs rs')
    (hs : ∀ r ∈ rs, r.Sound maxProgress) (hprogress : progress < maxProgress) :
    (∃ r ∈ rs', r.Behind pos progress) ↔ ∃ r ∈ rs, r.Behind pos progress := by
  induction h with
  | nil => exact Iff.rfl
  | cons hr _ ih =>
      obtain ⟨hsr, hsrs⟩ := List.forall_mem_cons.1 hs
      rw [List.exists_mem_cons_iff, List.exists_mem_cons_iff, ih hsrs]
      refine or_congr_left ?_
      rcases hr with rfl | rfl
      · exact Iff.rfl
      · exact behind_advance hsr hprogress

/-- **What `GetNextByteToMutate` does**: some regions go on to their next positions, and
then the pair at the first cursor that is in its region is returned; `false` if there is
none. -/
theorem getNextByteToMutate_cases (hM : 1 ≤ maxProgress) (context : BaseDeterministicContext)
    (hsound : ∀ r ∈ context.regions, r.Sound maxProgress)
    (hdone : ∀ r ∈ context.regions.take context.curRegion, r.regionEnd ≤ r.cur) :
    ∃ rs, Advanced maxProgress context.regions rs ∧
      ((∀ r ∈ rs, r.regionEnd ≤ r.cur) ∧
          (∃ k, context.getNextByteToMutate maxProgress = (none, ⟨rs, k⟩)) ∨
        ∃ pre r post, rs = pre ++ r :: post ∧ (∀ x ∈ pre, x.regionEnd ≤ x.cur) ∧
          r.cur < r.regionEnd ∧ r.curProgress < maxProgress ∧
          context.getNextByteToMutate maxProgress = (some (r.cur, r.curProgress),
            ⟨pre ++ { r with curProgress := r.curProgress + 1 } :: post, pre.length⟩)) := by
  obtain ⟨regions, curRegion⟩ := context
  dsimp only at hsound hdone ⊢
  have hsplit := List.take_append_drop curRegion regions
  rcases scan_cases maxProgress (regions.drop curRegion) with
    ⟨hscan, hall⟩ | ⟨pre, r, post, hdrop, hpre, hlt, hscan⟩
  · refine ⟨regions.take curRegion ++ (regions.drop curRegion).map (·.advance maxProgress), ?_,
      Or.inl ⟨?_, curRegion + (regions.drop curRegion).length, ?_⟩⟩
    · nth_rewrite 1 [← hsplit]
      exact List.rel_append (Advanced.refl _) (Advanced.map _)
    · intro x hx
      rcases List.mem_append.1 hx with hx | hx
      · exact hdone x hx
      · obtain ⟨y, hy, rfl⟩ := List.mem_map.1 hx
        exact hall y hy
    · rw [BaseDeterministicContext.getNextByteToMutate, hscan]
  · have hr : r ∈ regions := List.mem_of_mem_drop (hdrop ▸ List.mem_append_right _ List.mem_cons_self)
    have hlength : (regions.take curRegion).length = curRegion := by
      rw [List.length_take, Nat.min_eq_left]
      by_contra hge
      rw [List.drop_eq_nil_of_le (by omega)] at hdrop
      exact List.cons_ne_nil _ _ (List.append_eq_nil_iff.1 hdrop.symm).2
    refine ⟨(regions.take curRegion ++ pre.map (·.advance maxProgress)) ++ r.advance maxProgress :: post,
      ?_, Or.inr ⟨regions.take curRegion ++ pre.map (·.advance maxProgress), r.advance maxProgress, post,
        rfl, ?_, hlt, ((hsound r hr).advance hM).2, ?_⟩⟩
    · nth_rewrite 1 [← hsplit]
      rw [hdrop, List.append_assoc]
      exact List.rel_append (Advanced.refl _)
        (List.rel_append (Advanced.map _) (.cons (Or.inr rfl) (Advanced.refl _)))
    · intro x hx
      rcases List.mem_append.1 hx with hx | hx
      · exact hdone x hx
      · obtain ⟨y, hy, rfl⟩ := List.mem_map.1 hx
        exact hpre y hy
    · rw [BaseDeterministicContext.getNextByteToMutate, hscan]
      simp only [List.append_assoc, List.length_append, List.length_map, hlength]

/-- The calls so far are what the regions say. -/
structure Scanned (maxProgress : ℕ) (tr : List ScanEvent) (context : BaseDeterministicContext) :
    Prop where
  sound : ∀ r ∈ context.regions, r.Sound maxProgress
  /-- What is behind a cursor is what was returned. -/
  returned : ∀ pos progress, progress < maxProgress →
    ((∃ r ∈ context.regions, r.Behind pos progress) ↔
      .getNextByteToMutate (some (pos, progress)) ∈ tr)
  /-- What was returned has a value below the bound. -/
  progress_lt : ∀ pos progress, .getNextByteToMutate (some (pos, progress)) ∈ tr →
    progress < maxProgress
  /-- The regions before the current one are done. -/
  done : ∀ r ∈ context.regions.take context.curRegion, r.regionEnd ≤ r.cur

/-- A region that has not been begun. -/
theorem sound_new : MutateRegion.Sound maxProgress ⟨newStart, newEnd, newStart, 0⟩ :=
  ⟨le_rfl, Or.inr ⟨rfl, rfl⟩, Nat.zero_le _, fun h => absurd h (lt_irrefl 0)⟩

/-- Nothing is behind the cursor of a new region.  -/
theorem not_behind_new : ¬ MutateRegion.Behind ⟨newStart, newEnd, newStart, 0⟩ pos progress := by
  rintro ⟨hstart, hlt | ⟨-, hlt⟩⟩
  · exact absurd hstart (Nat.not_le.2 hlt)
  · exact absurd hlt (Nat.not_lt_zero _)

/-- A new window passes no pair.  Where it enlarges a region it does so at the end, and
where it is a region of its own it begins at its first position.  -/
theorem AddsRegion.scanned (h : AddsRegion newStart newEnd rs rs')
    (hs : ∀ r ∈ rs, r.Sound maxProgress) : (∀ r ∈ rs', r.Sound maxProgress) ∧
      ∀ pos progress, (∃ r ∈ rs', r.Behind pos progress) ↔ ∃ r ∈ rs, r.Behind pos progress := by
  cases h with
  | appended =>
      refine ⟨fun x hx => ?_, fun pos progress => ?_⟩
      · rcases List.mem_append.1 hx with hx | hx
        · exact hs x hx
        · rw [List.mem_singleton.1 hx]
          exact sound_new
      · simp only [List.mem_append, List.mem_singleton, or_and_right, exists_or, exists_eq_left,
          not_behind_new, or_false]
  | inserted =>
      refine ⟨fun x hx => ?_, fun pos progress => ?_⟩
      · rcases List.mem_append.1 hx with hx | hx
        · exact hs x (List.mem_append_left _ hx)
        · rcases List.mem_cons.1 hx with rfl | hx
          · exact sound_new
          · exact hs x (List.mem_append_right _ hx)
      · simp only [List.mem_append, List.mem_cons, or_and_right, exists_or, exists_eq_left,
          not_behind_new, false_or]
  | absorbed => exact ⟨hs, fun _ _ => Iff.rfl⟩
  | @extended pre r post _ hstart hend hlt =>
      have hr := hs r (List.mem_append_right _ List.mem_cons_self)
      have hcur : r.cur ≤ r.regionEnd := by
        rcases hr.cur with hcur | ⟨hcur, -⟩ <;> omega
      have hr' : { r with regionEnd := newEnd }.Sound maxProgress :=
        ⟨hr.start_le, Or.inl (hcur.trans hlt.le), hr.progress_le, fun h => (hr.pending h).trans hlt⟩
      refine ⟨fun x hx => ?_, fun pos progress => ?_⟩
      · rcases List.mem_append.1 hx with hx | hx
        · exact hs x (List.mem_append_left _ hx)
        · rcases List.mem_cons.1 hx with rfl | hx
          · exact hr'
          · exact hs x (List.mem_append_right _ (List.mem_cons_of_mem _ hx))
      · simp only [List.mem_append, List.mem_cons, or_and_right, exists_or, exists_eq_left]
        exact Iff.rfl

/-- **In every run the regions say what was returned.** A pair lies behind the cursor of
some region exactly if a call has returned it, so the regions alone tell what is still to be
tried.  -/
theorem scanned_of_run {tr : List ScanEvent} {context : BaseDeterministicContext}
    (hM : 1 ≤ maxProgress) (hrun : Run (ScanStep {maxProgress}) .empty tr context) :
    Scanned maxProgress tr context := by
  refine hrun.invariant (Scanned maxProgress) ?_ ?_
  · exact ⟨fun _ h => absurd h List.not_mem_nil, by simp [BaseDeterministicContext.empty],
      fun _ _ h => absurd h List.not_mem_nil, fun _ h => absurd h List.not_mem_nil⟩
  intro tr context event context' h hstep
  cases hstep with
  | addHotOffset offset =>
      obtain ⟨hsound, hbehind⟩ := (addsRegion_addRegion (newRegionStart offset) (newRegionEnd offset)
        context.regions).scanned h.sound
      refine ⟨hsound, fun pos progress hprogress => ?_, fun pos progress hmem => ?_,
        fun _ hr => absurd hr List.not_mem_nil⟩
      · rw [BaseDeterministicContext.addHotOffset, hbehind, h.returned pos progress hprogress]
        simp
      · exact h.progress_lt pos progress (by simpa using hmem)
  | getNextByteToMutate hallowed =>
      cases hallowed
      obtain ⟨rs, hadv, ⟨hall, k, hnext⟩ | ⟨pre, r, post, rfl, hpre, hlt, hprogress, hnext⟩⟩ :=
        getNextByteToMutate_cases hM context h.sound h.done
      · rw [hnext]
        refine ⟨hadv.sound hM h.sound, fun pos progress hprogress => ?_, fun pos progress hmem => ?_,
          fun r hr => hall r (List.mem_of_mem_take hr)⟩
        · rw [hadv.behind h.sound hprogress, h.returned pos progress hprogress]
          simp
        · exact h.progress_lt pos progress (by simpa using hmem)
      · rw [hnext]
        have hsound := hadv.sound hM h.sound
        have hr := hsound r (List.mem_append_right _ List.mem_cons_self)
        refine ⟨fun x hx => ?_, fun pos progress hp => ?_, fun pos progress hmem => ?_, fun x hx => ?_⟩
        · rcases List.mem_append.1 hx with hx | hx
          · exact hsound x (List.mem_append_left _ hx)
          · rcases List.mem_cons.1 hx with rfl | hx
            · exact hr.next hlt hprogress
            · exact hsound x (List.mem_append_right _ (List.mem_cons_of_mem _ hx))
        · have hold := (@Advanced.behind maxProgress pos progress _ _ hadv h.sound hp).trans
            (h.returned pos progress hp)
          simp only [List.mem_append, List.mem_cons, or_and_right, exists_or, exists_eq_left] at hold
          simp only [List.mem_append, List.mem_cons, or_and_right, exists_or, exists_eq_left,
            behind_next hr, ← hold, List.not_mem_nil, or_false, ScanEvent.getNextByteToMutate.injEq,
            Option.some.injEq, Prod.mk.injEq]
          exact (or_congr_right or_right_comm).trans or_assoc.symm
        · rcases List.mem_append.1 hmem with hmem | hmem
          · exact h.progress_lt pos progress hmem
          · cases List.mem_singleton.1 hmem
            exact hprogress
        · rw [List.take_left] at hx
          exact hpre x hx

/-! ### No position is missed -/

/-- The position is in some region. -/
def Covers (rs : List MutateRegion) (pos : ℕ) : Prop :=
  ∃ r ∈ rs, r.regionStart ≤ pos ∧ pos < r.regionEnd

/-- **The rest of a cut window is there**: from the start of a region on, as many positions
as a window has are in some region. -/
def Filled (rs : List MutateRegion) : Prop :=
  ∀ r ∈ rs, 0 < r.regionStart → ∀ pos, r.regionStart ≤ pos → pos < r.regionStart + 23 → Covers rs pos

/-- What regions cover is a matter of their bounds.  -/
theorem covers_iff_bounds : Covers rs pos ↔ ∃ b ∈ bounds rs, b.1 ≤ pos ∧ pos < b.2 := by
  simp [Covers, bounds]

/-- So is whether they are filled.  -/
theorem filled_iff_bounds : Filled rs ↔ ∀ b ∈ bounds rs, 0 < b.1 → ∀ pos, b.1 ≤ pos →
    pos < b.1 + 23 → ∃ b ∈ bounds rs, b.1 ≤ pos ∧ pos < b.2 := by
  simp [Filled, covers_iff_bounds, bounds]

/-- What two lists of regions cover.  -/
theorem covers_append {rs₁ rs₂ : List MutateRegion} :
    Covers (rs₁ ++ rs₂) pos ↔ Covers rs₁ pos ∨ Covers rs₂ pos := by
  simp only [Covers, List.mem_append, or_and_right, exists_or]

/-- What a region and those behind it cover.  -/
theorem covers_cons : Covers (r :: rs) pos ↔ (r.regionStart ≤ pos ∧ pos < r.regionEnd) ∨ Covers rs pos := by
  simp only [Covers, List.mem_cons, or_and_right, exists_or, exists_eq_left]

/-- No regions cover nothing.  -/
theorem covers_nil : ¬ Covers [] pos := by
  rintro ⟨r, hr, -⟩
  exact absurd hr List.not_mem_nil

/-- **A window that is put into the regions is covered**, and nothing else is new.  No
window is longer than the regions are, so a region that it overlaps only has to be moved at
its end.  -/
theorem AddsRegion.covers (h : AddsRegion newStart newEnd rs rs') (hf : Filled rs)
    (hlt : newStart < newEnd) (hle : newEnd ≤ newStart + 23) :
    Covers rs' pos ↔ Covers rs pos ∨ newStart ≤ pos ∧ pos < newEnd := by
  cases h with
  | appended => rw [covers_append, covers_cons, or_iff_left covers_nil]
  | @inserted pre r post _ hstart =>
      have hrest : r.regionStart ≤ pos → pos < newEnd → Covers (pre ++ r :: post) pos := fun h₁ h₂ =>
        hf r (List.mem_append_right _ List.mem_cons_self) (by omega) pos h₁ (by omega)
      rw [covers_append, covers_cons] at hrest
      rw [covers_append, covers_append, covers_cons, covers_cons]
      dsimp only
      constructor
      · rintro (h | h | h)
        · exact Or.inl (Or.inl h)
        · exact Or.inr ⟨h.1, by omega⟩
        · exact Or.inl (Or.inr h)
      · rintro ((h | h) | h)
        · exact Or.inl h
        · exact Or.inr (Or.inr h)
        · rcases Nat.lt_or_ge pos r.regionStart with hpos | hpos
          · exact Or.inr (Or.inl ⟨h.1, by omega⟩)
          · exact (hrest hpos h.2).imp_right Or.inr
  | @absorbed pre r post _ hstart hend hle' =>
      rw [covers_append, covers_cons]
      have hin : newStart ≤ pos ∧ pos < newEnd → r.regionStart ≤ pos ∧ pos < r.regionEnd := by omega
      exact (or_iff_left_of_imp fun h => Or.inr (Or.inl (hin h))).symm
  | @extended pre r post _ hstart hend hlt' =>
      rw [covers_append, covers_append, covers_cons, covers_cons]
      dsimp only
      have : (r.regionStart ≤ pos ∧ pos < newEnd) ↔
          (r.regionStart ≤ pos ∧ pos < r.regionEnd) ∨ newStart ≤ pos ∧ pos < newEnd := by omega
      rw [this]
      exact (or_congr_right or_right_comm).trans or_assoc.symm

/-- A window as long as a region is filled keeps the regions filled.  Only the window at the
very beginning of the sample is cut short at its lower end.  -/
theorem AddsRegion.filled (h : AddsRegion newStart newEnd rs rs') (hf : Filled rs)
    (hlt : newStart < newEnd) (hle : newEnd ≤ newStart + 23)
    (hlen : 0 < newStart → newEnd = newStart + 23) : Filled rs' := by
  have hstarts : ∀ r' ∈ rs', r'.regionStart = newStart ∨ ∃ r ∈ rs, r.regionStart = r'.regionStart := by
    intro r' hr'
    cases h with
    | appended =>
        rcases List.mem_append.1 hr' with hr' | hr'
        · exact Or.inr ⟨r', hr', rfl⟩
        · rw [List.mem_singleton.1 hr']
          exact Or.inl rfl
    | inserted =>
        rcases List.mem_append.1 hr' with hr' | hr'
        · exact Or.inr ⟨r', List.mem_append_left _ hr', rfl⟩
        · rcases List.mem_cons.1 hr' with rfl | hr'
          · exact Or.inl rfl
          · exact Or.inr ⟨r', List.mem_append_right _ hr', rfl⟩
    | absorbed => exact Or.inr ⟨r', hr', rfl⟩
    | @extended pre r post =>
        rcases List.mem_append.1 hr' with hr' | hr'
        · exact Or.inr ⟨r', List.mem_append_left _ hr', rfl⟩
        · rcases List.mem_cons.1 hr' with rfl | hr'
          · exact Or.inr ⟨r, List.mem_append_right _ List.mem_cons_self, rfl⟩
          · exact Or.inr ⟨r', List.mem_append_right _ (List.mem_cons_of_mem _ hr'), rfl⟩
  intro r' hr' hpos pos hfrom hto
  rw [h.covers hf hlt hle]
  rcases hstarts r' hr' with hnew | ⟨r, hr, hold⟩
  · have := hlen (by omega)
    exact Or.inr ⟨by omega, by omega⟩
  · exact Or.inl (hf r hr (by omega) pos (by omega) (by omega))

/-- The regions are the windows of the offsets added so far. -/
structure Windows (tr : List ScanEvent) (context : BaseDeterministicContext) : Prop where
  covers : ∀ pos, Covers context.regions pos ↔
    ∃ offset, .addHotOffset offset ∈ tr ∧ offset - 3 ≤ pos ∧ pos < offset + 20
  filled : Filled context.regions

/-- The offset is not so large that its window wraps. -/
def ScanEvent.NoWrap : ScanEvent → Prop
  | .addHotOffset offset => offset + 20 < 2 ^ 64
  | .getNextByteToMutate _ => True

/-- **The regions cover the windows of the offsets that were added, and nothing else**, if
no window wraps around.  A region that is cut off where the next one begins is filled up by
that one, which is the part of the invariant that has to be found.  -/
theorem windows_of_run {allowed : Set ℕ} {tr : List ScanEvent} {context : BaseDeterministicContext}
    (hrun : Run (ScanStep allowed) .empty tr context)
    (hwrap : ∀ event ∈ tr, event.NoWrap) : Windows tr context := by
  induction hrun with
  | refl =>
      refine ⟨fun pos => ?_, fun _ h => absurd h List.not_mem_nil⟩
      simp [BaseDeterministicContext.empty, covers_nil]
  | @snoc tr context event context' hrun hstep ih =>
      have h := ih fun event hmem => hwrap event (List.mem_append_left _ hmem)
      cases hstep with
      | addHotOffset offset =>
          have hnowrap : offset + 20 < 2 ^ 64 :=
            hwrap _ (List.mem_append_right _ (List.mem_singleton_self _))
          have hend : newRegionEnd offset = offset + 20 := Nat.mod_eq_of_lt hnowrap
          have hstart : newRegionStart offset = offset - 3 := by
            unfold newRegionStart
            split <;> omega
          have hadd := addsRegion_addRegion (newRegionStart offset) (newRegionEnd offset)
            context.regions
          refine ⟨fun pos => ?_, hadd.filled h.filled (by omega) (by omega) (by omega)⟩
          rw [BaseDeterministicContext.addHotOffset, hadd.covers h.filled (by omega) (by omega),
            h.covers pos, hend, hstart]
          simp only [List.mem_append, List.mem_singleton, ScanEvent.addHotOffset.injEq, or_and_right,
            exists_or, exists_eq_left]
      | @getNextByteToMutate m =>
          have hbounds := bounds_getNextByteToMutate m context
          refine ⟨fun pos => ?_, ?_⟩
          · rw [covers_iff_bounds, hbounds, ← covers_iff_bounds, h.covers pos]
            simp
          · rw [filled_iff_bounds, hbounds, ← filled_iff_bounds]
            exact h.filled

/-- What an answer of `GetNextByteToMutate` says, after the calls so far. -/
def AnswerOk (maxProgress : ℕ) (tr : List ScanEvent) : Option (ℕ × ℕ) → Prop
  | some (pos, progress) => progress < maxProgress ∧
      ∃ offset, .addHotOffset offset ∈ tr ∧ offset - 3 ≤ pos ∧ pos < offset + 20
  | none => ∀ offset, .addHotOffset offset ∈ tr → ∀ pos, offset - 3 ≤ pos → pos < offset + 20 →
      ∀ progress < maxProgress, .getNextByteToMutate (some (pos, progress)) ∈ tr

/-- **Nothing outside the windows is mutated, and nothing in them is missed.**  A pair that
is returned is in the window of an offset added before, and when `false` is returned, every
pair of every such window has been returned. -/
theorem getNextByteToMutate_complete {tr tr₁ tr₂ : List ScanEvent} {found : Option (ℕ × ℕ)}
    {context : BaseDeterministicContext} (hM : 1 ≤ maxProgress)
    (hrun : Run (ScanStep {maxProgress}) .empty tr context)
    (hwrap : ∀ offset, .addHotOffset offset ∈ tr → offset + 20 < 2 ^ 64)
    (htr : tr = tr₁ ++ .getNextByteToMutate found :: tr₂) : AnswerOk maxProgress tr₁ found := by
  subst htr
  obtain ⟨context₁, context₂, hrun₁, hstep, -⟩ := hrun.split_cons
  have hnowrap : ∀ event ∈ tr₁, event.NoWrap := by
    intro event hmem
    cases event with
    | addHotOffset offset => exact hwrap offset (List.mem_append_left _ hmem)
    | getNextByteToMutate => trivial
  have hwindows := windows_of_run hrun₁ hnowrap
  have hscanned := scanned_of_run hM hrun₁
  generalize hevent : ScanEvent.getNextByteToMutate found = event at hstep
  cases hstep with
  | addHotOffset => cases hevent
  | getNextByteToMutate hallowed =>
      cases hallowed
      cases hevent
      obtain ⟨rs, hadv, hnext⟩ := getNextByteToMutate_cases hM context₁ hscanned.sound hscanned.done
      have hcovers : ∀ pos, Covers rs pos ↔ Covers context₁.regions pos := fun pos => by
        rw [covers_iff_bounds, hadv.bounds_eq, ← covers_iff_bounds]
      rcases hnext with ⟨hall, k, hnext⟩ | ⟨pre, r, post, rfl, -, hlt, hprogress, hnext⟩
      · rw [hnext]
        intro offset hoffset pos hfrom hto progress hp
        obtain ⟨r, hr, hstart, hend⟩ := (hcovers pos).2 ((hwindows.covers pos).2
          ⟨offset, hoffset, hfrom, hto⟩)
        have hbehind : r.Behind pos progress := ⟨hstart, Or.inl (hend.trans_le (hall r hr))⟩
        rw [← hscanned.returned pos progress hp]
        exact (hadv.behind hscanned.sound hp).1 ⟨r, hr, hbehind⟩
      · rw [hnext]
        have hr : r ∈ pre ++ r :: post := List.mem_append_right _ List.mem_cons_self
        have hstart := (hadv.sound hM hscanned.sound r hr).start_le
        exact ⟨hprogress, (hwindows.covers r.cur).1 ((hcovers r.cur).1 ⟨r, hr, hstart, hlt⟩)⟩

/-- Further calls of `GetNextByteToMutate`, with what they return. -/
def answers (maxProgress : ℕ) : ℕ → BaseDeterministicContext →
    List ScanEvent × BaseDeterministicContext
  | 0, context => ([], context)
  | n + 1, context =>
      let (found, context) := context.getNextByteToMutate maxProgress
      let (calls, context) := answers maxProgress n context
      (.getNextByteToMutate found :: calls, context)

/-- **Calls that are evaluated are a run.** -/
theorem run_answers (maxProgress n : ℕ) (context : BaseDeterministicContext) :
    Run (ScanStep {maxProgress}) context (answers maxProgress n context).1
      (answers maxProgress n context).2 := by
  induction n generalizing context with
  | zero => exact Run.refl
  | succ n ih => exact Run.cons (.getNextByteToMutate (Set.mem_singleton _)) (ih _)

/-- The calls that return both values of `n` positions. -/
def bothValues (pos n : ℕ) : List ScanEvent :=
  (List.range' pos n).flatMap fun pos =>
    [.getNextByteToMutate (some (pos, 0)), .getNextByteToMutate (some (pos, 1))]

/-- The hot offset 0, the values of the first position, the hot offset 2, which makes the
region longer by two positions, and the values of all the others. -/
def twoOffsets : List ScanEvent :=
  .addHotOffset 0 :: (bothValues 0 1 ++ .addHotOffset 2 :: bothValues 1 21)

/-- **A run up to the answer `false`.** The windows of 0 and 2 overlap in one region, and
what is returned before is each position of both windows with both values, in the order of
the positions.  The conclusions are drawn at the last answer of the run and at the first one
of a shorter run.  -/
theorem getNextByteToMutate_complete_twoOffsets :
    (∃ context, Run (ScanStep {2}) .empty (twoOffsets ++ [.getNextByteToMutate none]) context) ∧
      AnswerOk 2 twoOffsets none ∧ AnswerOk 2 [.addHotOffset 0] (some (0, 0)) := by
  let first : BaseDeterministicContext := BaseDeterministicContext.empty.addHotOffset 0
  let second : BaseDeterministicContext := (answers 2 2 first).2.addHotOffset 2
  have hrun : Run (ScanStep {2}) .empty
      (.addHotOffset 0 :: ((answers 2 2 first).1 ++ .addHotOffset 2 :: (answers 2 43 second).1))
      (answers 2 43 second).2 :=
    Run.cons (.addHotOffset 0) ((run_answers 2 2 first).trans
      (Run.cons (.addHotOffset 2) (run_answers 2 43 second)))
  have htrace : .addHotOffset 0 :: ((answers 2 2 first).1 ++
      .addHotOffset 2 :: (answers 2 43 second).1) = twoOffsets ++ [.getNextByteToMutate none] := by
    decide
  rw [htrace] at hrun
  have hwrap : ∀ offset, .addHotOffset offset ∈ twoOffsets ++ [.getNextByteToMutate none] →
      offset + 20 < 2 ^ 64 := by
    intro offset hmem
    have : offset = 0 ∨ offset = 2 := by simpa [twoOffsets, bothValues] using hmem
    omega
  exact ⟨⟨_, hrun⟩, getNextByteToMutate_complete (by decide) hrun hwrap rfl,
    @getNextByteToMutate_complete 2 _ [.addHotOffset 0] _ _ _ (by decide) hrun hwrap rfl⟩

/-! ### Where regions overlap -/

/-- The regions are sorted, and each ends where the ones behind begin, or before. -/
def RegionsDisjoint (rs : List MutateRegion) : Prop :=
  rs.Pairwise fun r r' => r.regionStart ≤ r'.regionStart ∧ r.regionEnd ≤ r'.regionStart

instance (rs : List MutateRegion) : Decidable (RegionsDisjoint rs) :=
  inferInstanceAs (Decidable (List.Pairwise _ rs))

/-- The window begins in a region, or where it ends, and ends behind the start of the
next. -/
def Overruns (rs : List MutateRegion) (newStart newEnd : ℕ) : Prop :=
  ∃ pre r next post, rs = pre ++ r :: next :: post ∧ r.regionStart ≤ newStart ∧
    newStart ≤ r.regionEnd ∧ r.regionEnd < newEnd ∧ next.regionStart < newEnd

/-- The regions that end before the window are not overrun, so it is enough to look at those
behind them.  -/
theorem Overruns.of_append {pre : List MutateRegion} (h : Overruns (pre ++ rs) newStart newEnd)
    (hpre : ∀ x ∈ pre, x.regionStart ≤ newStart ∧ x.regionEnd < newStart) :
    Overruns rs newStart newEnd := by
  obtain ⟨pre', r, next, post, heq, hstart, hend, hover⟩ := h
  rcases List.append_eq_append_iff.1 heq with ⟨as, -, hrs⟩ | ⟨bs, rfl, hrs⟩
  · exact ⟨as, r, next, post, hrs, hstart, hend, hover⟩
  · rcases bs with _ | ⟨b, bs⟩
    · exact ⟨[], r, next, post, hrs.symm, hstart, hend, hover⟩
    · obtain ⟨rfl, -⟩ := List.cons.inj hrs
      have := hpre r (List.mem_append_right _ List.mem_cons_self)
      omega

/-- An overrun region is one that the window begins in, or where it ends, and leaves. -/
theorem Overruns.exists_left (h : Overruns rs newStart newEnd) :
    ∃ r ∈ rs, r.regionStart ≤ newStart ∧ newStart ≤ r.regionEnd ∧ r.regionEnd < newEnd := by
  obtain ⟨pre, r, next, post, rfl, hstart, hend, hlt, -⟩ := h
  exact ⟨r, List.mem_append_right _ List.mem_cons_self, hstart, hend, hlt⟩

/-- A window that leaves a region overruns it if it reaches one behind: it begins in the
region and ends behind it, so it is merged with that region alone, even where the next one
begins before its end.  -/
theorem overruns_iff_of_left {pre post : List MutateRegion} {r : MutateRegion}
    (hd : RegionsDisjoint (r :: post))
    (hpre : ∀ x ∈ pre, x.regionStart ≤ newStart ∧ x.regionEnd < newStart)
    (hstart : r.regionStart ≤ newStart) (hend : newStart ≤ r.regionEnd) (hlt : r.regionEnd < newEnd) :
    Overruns (pre ++ r :: post) newStart newEnd ↔ ∃ y ∈ post, y.regionStart < newEnd := by
  constructor
  · intro hover
    obtain ⟨pre', x, next, post', heq, hstart', -, -, hnext⟩ := hover.of_append hpre
    -- the overrun region is this one, or one behind it
    rcases pre' with _ | ⟨p, pre'⟩
    · cases heq
      exact ⟨next, List.mem_cons_self, hnext⟩
    · cases heq
      exact ⟨x, List.mem_append_right _ List.mem_cons_self, by omega⟩
  · rintro ⟨y, hy, hyend⟩
    obtain ⟨-, hdpost⟩ := List.pairwise_cons.1 hd
    rcases post with _ | ⟨next, post⟩
    · exact absurd hy List.not_mem_nil
    refine ⟨pre, r, next, post, rfl, hstart, hend, hlt, ?_⟩
    rcases List.mem_cons.1 hy with rfl | hy
    · exact hyend
    · exact ((List.pairwise_cons.1 hdpost).1 y hy).1.trans_lt hyend

/-- A region between disjoint ones, that reaches none of them, leaves them disjoint; it may
touch both of its neighbours.  -/
theorem RegionsDisjoint.insert {pre post : List MutateRegion} {r : MutateRegion}
    (hd : RegionsDisjoint (pre ++ post))
    (hpre : ∀ x ∈ pre, x.regionStart ≤ r.regionStart ∧ x.regionEnd ≤ r.regionStart)
    (hpost : ∀ y ∈ post, r.regionStart ≤ y.regionStart ∧ r.regionEnd ≤ y.regionStart) :
    RegionsDisjoint (pre ++ r :: post) := by
  obtain ⟨hdpre, hdpost, hacross⟩ := List.pairwise_append.1 hd
  refine List.pairwise_append.2 ⟨hdpre, List.pairwise_cons.2 ⟨hpost, hdpost⟩, fun x hx y hy => ?_⟩
  rcases List.mem_cons.1 hy with rfl | hy
  · exact hpre x hx
  · exact hacross x hx y hy

/-- **A window keeps disjoint regions disjoint** unless it overruns one.  The region that
takes the window in grows, and what is next to it is not looked at.  -/
theorem AddsRegion.disjoint_iff (h : AddsRegion newStart newEnd rs rs') (hd : RegionsDisjoint rs) :
    RegionsDisjoint rs' ↔ ¬ Overruns rs newStart newEnd := by
  cases h with
  | appended hall =>
      refine iff_of_true ?_ fun hover => ?_
      · rw [← List.append_nil rs] at hd
        exact hd.insert (fun x hx => ⟨(hall x hx).1, (hall x hx).2.le⟩)
          fun y hy => absurd hy List.not_mem_nil
      · rw [← List.append_nil rs] at hover
        obtain ⟨r, hr, -⟩ := (hover.of_append hall).exists_left
        exact absurd hr List.not_mem_nil
  | @inserted pre r post hpre hlt =>
      have hr : ∀ y ∈ r :: post, r.regionStart ≤ y.regionStart := by
        obtain ⟨-, hdpost, -⟩ := List.pairwise_append.1 hd
        exact List.forall_mem_cons.2 ⟨le_rfl, fun y hy => ((List.pairwise_cons.1 hdpost).1 y hy).1⟩
      refine iff_of_true ?_ fun hover => ?_
      · refine hd.insert (fun x hx => ⟨(hpre x hx).1, (hpre x hx).2.le⟩) fun y hy => ?_
        have := hr y hy
        dsimp only
        omega
      · obtain ⟨y, hy, hstart, -⟩ := (hover.of_append hpre).exists_left
        have := hr y hy
        omega
  | @absorbed pre r post hpre hstart hend hle =>
      obtain ⟨-, hdpost, -⟩ := List.pairwise_append.1 hd
      refine iff_of_true hd fun hover => ?_
      obtain ⟨y, hy, hystart, hin, hyend⟩ := (hover.of_append hpre).exists_left
      rcases List.mem_cons.1 hy with rfl | hy
      · omega
      · have := (List.pairwise_cons.1 hdpost).1 y hy
        omega
  | @extended pre r post hpre hstart hend hlt =>
      obtain ⟨-, hdpost, hacross⟩ := List.pairwise_append.1 hd
      obtain ⟨hr, -⟩ := List.pairwise_cons.1 hdpost
      rw [overruns_iff_of_left hdpost hpre hstart hend hlt]
      constructor
      · rintro hd' ⟨y, hy, hyend⟩
        obtain ⟨-, hdpost', -⟩ := List.pairwise_append.1 hd'
        have hle : newEnd ≤ y.regionStart := ((List.pairwise_cons.1 hdpost').1 y hy).2
        omega
      · intro hnone
        have hd' : RegionsDisjoint (pre ++ post) :=
          List.Pairwise.sublist ((List.Sublist.refl pre).append (List.sublist_cons_self r post)) hd
        refine hd'.insert (fun x hx => hacross x hx r List.mem_cons_self) fun y hy => ⟨(hr y hy).1, ?_⟩
        by_contra hyend
        exact hnone ⟨y, hy, Nat.not_le.1 hyend⟩

/-- The pairs that were returned, in order. -/
def returnedPairs (tr : List ScanEvent) : List (ℕ × ℕ) :=
  tr.filterMap fun event =>
    match event with
    | .addHotOffset _ => none
    | .getNextByteToMutate found => found

/-- A pair is in the list if some call has returned it, as often as it has been returned.
-/
theorem mem_returnedPairs {tr : List ScanEvent} {pair : ℕ × ℕ} :
    pair ∈ returnedPairs tr ↔ .getNextByteToMutate (some pair) ∈ tr := by
  rw [returnedPairs, List.mem_filterMap]
  constructor
  · rintro ⟨event, hmem, hsome⟩
    cases event with
    | addHotOffset => cases hsome
    | getNextByteToMutate found =>
        obtain rfl : found = some pair := hsome
        exact hmem
  · exact fun hmem => ⟨_, hmem, rfl⟩

/-- The cursor of a region is behind no cursor of disjoint regions: its position lies in no
other region, and in its own the pair is the next one.  -/
theorem not_behind_cur {pre post : List MutateRegion} (hd : RegionsDisjoint (pre ++ r :: post))
    (hs : ∀ x ∈ pre ++ r :: post, x.Sound maxProgress) (hlt : r.cur < r.regionEnd) :
    ¬ ∃ x ∈ pre ++ r :: post, x.Behind r.cur r.curProgress := by
  rintro ⟨x, hx, hbehind⟩
  have hstart := (hs r (List.mem_append_right _ List.mem_cons_self)).start_le
  have hend := (hs x hx).lt_end hbehind
  obtain ⟨-, hdpost, hacross⟩ := List.pairwise_append.1 hd
  rcases List.mem_append.1 hx with hx | hx
  · have := hacross x hx r List.mem_cons_self
    omega
  · rcases List.mem_cons.1 hx with rfl | hx
    · have := hbehind.2
      omega
    · have := (List.pairwise_cons.1 hdpost).1 x hx
      have := hbehind.1
      omega

/-- Whether regions are disjoint is a matter of their bounds.  -/
theorem regionsDisjoint_iff_bounds : RegionsDisjoint rs ↔
    (bounds rs).Pairwise fun b b' => b.1 ≤ b'.1 ∧ b.2 ≤ b'.1 := by
  rw [bounds, List.pairwise_map]
  exact Iff.rfl

/-- Adding an offset returns no pair.  -/
theorem returnedPairs_addHotOffset (tr : List ScanEvent) (offset : ℕ) :
    returnedPairs (tr ++ [.addHotOffset offset]) = returnedPairs tr := by
  rw [returnedPairs, List.filterMap_append, List.filterMap_cons_none rfl, List.filterMap_nil,
    List.append_nil]
  rfl

/-- The list gets the pair that is returned, if it is not the answer `false`. -/
theorem returnedPairs_getNextByteToMutate (tr : List ScanEvent) (found : Option (ℕ × ℕ)) :
    returnedPairs (tr ++ [.getNextByteToMutate found]) = returnedPairs tr ++ found.toList := by
  rw [returnedPairs, List.filterMap_append, ← returnedPairs]
  cases found <;> rfl

/-- No call of `AddHotOffset` in the run overruns a region. -/
def Clear (allowed : Set ℕ) (tr : List ScanEvent) : Prop :=
  ∀ tr₁ offset context, tr₁ ++ [.addHotOffset offset] <+: tr →
    Run (ScanStep allowed) .empty tr₁ context →
    ¬ Overruns context.regions (newRegionStart offset) (newRegionEnd offset)

/-- The beginning of a clear run is clear.  -/
theorem Clear.of_prefix {allowed : Set ℕ} {tr tr' : List ScanEvent} (h : Clear allowed tr')
    (hp : tr <+: tr') : Clear allowed tr :=
  fun tr₁ offset context htr₁ => h tr₁ offset context (htr₁.trans hp)

/-- A run that is clear keeps its regions disjoint: none of its windows has overrun a region
when it was put in.  -/
theorem disjoint_of_clear {allowed : Set ℕ} {tr : List ScanEvent} {context : BaseDeterministicContext}
    (hrun : Run (ScanStep allowed) .empty tr context) (hclear : Clear allowed tr) :
    RegionsDisjoint context.regions := by
  induction hrun with
  | refl => exact List.Pairwise.nil
  | @snoc tr context event context' hrun hstep ih =>
      have hd := ih (hclear.of_prefix (List.prefix_append _ _))
      cases hstep with
      | addHotOffset offset =>
          have hover := hclear tr offset context List.prefix_rfl hrun
          exact ((addsRegion_addRegion _ _ _).disjoint_iff hd).2 hover
      | getNextByteToMutate =>
          rwa [regionsDisjoint_iff_bounds, bounds_getNextByteToMutate, ← regionsDisjoint_iff_bounds]

/-- A run that is clear returns no pair twice: each pair that is returned was behind no
cursor before, and is behind one from then on.  -/
theorem nodup_of_clear {tr : List ScanEvent} {context : BaseDeterministicContext}
    (hM : 1 ≤ maxProgress) (hrun : Run (ScanStep {maxProgress}) .empty tr context)
    (hclear : Clear {maxProgress} tr) : (returnedPairs tr).Nodup := by
  induction hrun with
  | refl => exact List.nodup_nil
  | @snoc tr context event context' hrun hstep ih =>
      have hclear' := hclear.of_prefix (List.prefix_append _ _)
      have hnodup := ih hclear'
      have hd := disjoint_of_clear hrun hclear'
      have hscanned := scanned_of_run hM hrun
      cases hstep with
      | addHotOffset offset => rwa [returnedPairs_addHotOffset]
      | getNextByteToMutate hallowed =>
          cases hallowed
          rw [returnedPairs_getNextByteToMutate]
          obtain ⟨rs, hadv, ⟨-, k, hnext⟩ | ⟨pre, r, post, rfl, -, hlt, hprogress, hnext⟩⟩ :=
            getNextByteToMutate_cases hM context hscanned.sound hscanned.done
          · rwa [hnext, Option.toList_none, List.append_nil]
          have hd' : RegionsDisjoint (pre ++ r :: post) := by
            rwa [regionsDisjoint_iff_bounds, hadv.bounds_eq, ← regionsDisjoint_iff_bounds]
          have hnew : .getNextByteToMutate (some (r.cur, r.curProgress)) ∉ tr := by
            rw [← hscanned.returned _ _ hprogress, ← hadv.behind hscanned.sound hprogress]
            exact not_behind_cur hd' (hadv.sound hM hscanned.sound) hlt
          rw [hnext, Option.toList_some]
          refine List.nodup_append.2 ⟨hnodup, List.nodup_singleton _, ?_⟩
          rintro pair hpair _ hmem rfl
          rw [List.mem_singleton.1 hmem, mem_returnedPairs] at hpair
          exact hnew hpair

/-- **When regions stay disjoint**: exactly in the runs in which no call of `AddHotOffset`
overruns a region, whatever bounds `GetNextByteToMutate` is called with.  With one bound no
pair is then returned twice. -/
theorem regionsDisjoint_iff_clear (tr : List ScanEvent) :
    (∀ allowed, (∀ tr₁ context, tr₁ <+: tr → Run (ScanStep allowed) .empty tr₁ context →
        RegionsDisjoint context.regions) ↔ Clear allowed tr) ∧
      ∀ maxProgress, 1 ≤ maxProgress → ∀ context, Run (ScanStep {maxProgress}) .empty tr context →
        Clear {maxProgress} tr → (returnedPairs tr).Nodup := by
  refine ⟨fun allowed => ⟨fun h tr₁ offset context hp hrun => ?_, fun hclear tr₁ context hp hrun => ?_⟩,
    fun maxProgress hM context hrun hclear => nodup_of_clear hM hrun hclear⟩
  · have hbefore := h tr₁ context ((List.prefix_append _ _).trans hp) hrun
    have hafter := h _ _ hp (hrun.snoc (.addHotOffset offset))
    exact ((addsRegion_addRegion _ _ _).disjoint_iff hbefore).1 hafter
  · exact disjoint_of_clear hrun (hclear.of_prefix hp)

/-- **Two regions that overlap.** The hot offsets 4, 0 and 4 again: the last window begins
where the region for 0 ends, and extends it over the region that is there, so that its
positions are gone through twice.  -/
theorem not_regionsDisjoint_overrun : ∃ tr context, Run (ScanStep {1}) .empty tr context ∧
    ¬ RegionsDisjoint context.regions ∧ ¬ (returnedPairs tr).Nodup := by
  refine ⟨[.addHotOffset 4, .getNextByteToMutate (some (1, 0)), .addHotOffset 0, .addHotOffset 4,
    .getNextByteToMutate (some (0, 0)), .getNextByteToMutate (some (1, 0))],
    ⟨[⟨0, 24, 1, 1⟩, ⟨1, 24, 1, 1⟩], 0⟩, ?_, by decide, by decide⟩
  exact .cons (.addHotOffset 4) (.cons (.getNextByteToMutate (Set.mem_singleton 1)) (.cons (.addHotOffset 0)
    (.cons (.addHotOffset 4) (.cons (.getNextByteToMutate (Set.mem_singleton 1))
      (.single (.getNextByteToMutate (Set.mem_singleton 1)))))))

end Mutators
end Jackalope
