/-
# How many mutations at once

A `RepeatMutator` without a fixed probability counts how often it mutated each sample that
found new coverage, and adapts the probability of another mutation to the median of the
last counts.  The counts are static: all threads share them, `stats_mutex` protects them,
and they are saved with the state of the fuzzer.

What is computed from the ring and its indices, in any number of sessions, is the median of
the last `REPEAT_STATS` counts (`repeats_adapted`).
-/

import Jackalope.Foundation.Run
import Jackalope.Foundation.Window
import Jackalope.Mutators.Contexts

namespace Jackalope
namespace Mutators

open Foundation

/-- The static fields at the start of the process. -/
def RepeatStats.initial : RepeatStats where
  stats := List.Vector.replicate repeatStats 0
  nstats := 0
  nextStat := 0
  medianNumRepeats := 2
  -- 0.75
  adaptedRepeatP := 0x3F400000

/-- `new_adapted_repeat_p` of `UpdateStats`, `1.0f - 1.0f/median_num_repeats` but not less
than 0.5: the bits of the `float`, which is what `SaveGlobalState` writes. -/
def newAdaptedRepeatP (medianNumRepeats : UInt64) : UInt32 :=
  let newAdaptedRepeatP : Float32 := 1.0 - 1.0 / medianNumRepeats.toFloat32
  (if newAdaptedRepeatP < 0.5 then 0.5 else newAdaptedRepeatP).toBits

/-- `RepeatMutator::UpdateStats`; no result if it writes behind `stats`.  The probability is
the `float` that `adapt` makes of the median, in the code `newAdaptedRepeatP`; what follows
holds whatever it is. -/
def updateStats (adapt : UInt64 → UInt32) (lastNumRepeats : UInt64) (s : RepeatStats) :
    Option RepeatStats :=
  if h : s.nextStat.toNat < repeatStats then
    let stats := s.stats.set ⟨s.nextStat.toNat, h⟩ lastNumRepeats
    let nextStat := (s.nextStat + 1) % UInt64.ofNat repeatStats
    if s.nstats ≥ UInt64.ofNat repeatStats then
      (stats.toList.mergeSort (· ≤ ·))[repeatStats / 2]?.map fun median =>
        { s with stats, nextStat, medianNumRepeats := median, adaptedRepeatP := adapt median }
    else some { s with stats, nextStat, nstats := s.nstats + 1 }
  else none

/-! ### Sessions -/

/-- The static fields, `last_num_repeats` of the `RepeatMutator` of each thread if it has
mutated anything yet, and what `SaveGlobalState` wrote last. -/
structure Adaptation (τ : Type) where
  stats : RepeatStats
  lastNumRepeats : τ → Option UInt64
  saved : Option Bytes

/-- The process starts. -/
def Adaptation.init (τ : Type) : Adaptation τ := ⟨RepeatStats.initial, fun _ => none, none⟩

/-- What can be seen. -/
inductive AdaptEvent (τ : Type)
  /-- `Mutate` has mutated a sample so often. -/
  | mutated (t : τ) (lastNumRepeats : UInt64)
  /-- `NotifyResult`: the sample of this many mutations found new coverage. -/
  | notified (t : τ) (lastNumRepeats : UInt64)
  | saved
  | restored

/-- One step of one thread, or another process that restores the state. -/
inductive AdaptStep {τ : Type} [DecidableEq τ] (adapt : UInt64 → UInt32) (mutator : Mutator) :
    Adaptation τ → AdaptEvent τ → Adaptation τ → Prop
  /-- "run the mutator at least once". -/
  | mutate {s : Adaptation τ} {t lastNumRepeats} : 0 < lastNumRepeats →
      AdaptStep adapt mutator s (.mutated t lastNumRepeats)
        { s with lastNumRepeats := Function.update s.lastNumRepeats t (some lastNumRepeats) }
  | notify {s : Adaptation τ} {t lastNumRepeats stats} :
      s.lastNumRepeats t = some lastNumRepeats →
      updateStats adapt lastNumRepeats s.stats = some stats →
      AdaptStep adapt mutator s (.notified t lastNumRepeats) { s with stats }
  | save (s : Adaptation τ) :
      AdaptStep adapt mutator s .saved { s with saved := some (saveGlobalState s.stats mutator) }
  /-- `rest` is what comes behind it in the file. -/
  | restore {s : Adaptation τ} {bytes rest stats} : s.saved = some bytes →
      loadGlobalState mutator RepeatStats.initial (bytes ++ rest) = .ok (stats, rest) →
      AdaptStep adapt mutator s .restored
        { s with stats, lastNumRepeats := fun _ => none }

/-- The counts so far, and those when the state was saved last. -/
structure Counted where
  now : List UInt64
  saved : List UInt64

/-- One event more; what was counted after the state was saved is lost when it is restored. -/
def Counted.next {τ : Type} (c : Counted) : AdaptEvent τ → Counted
  | .mutated _ _ => c
  | .notified _ lastNumRepeats => { c with now := c.now ++ [lastNumRepeats] }
  | .saved => { c with saved := c.now }
  | .restored => { c with now := c.saved }

/-- What was counted in a run. -/
def counted {τ : Type} (tr : List (AdaptEvent τ)) : Counted := tr.foldl Counted.next ⟨[], []⟩

/-! ### The median -/

instance isLinearPreorder_uInt64 : Std.IsLinearPreorder UInt64 where
  le_refl _ := UInt64.le_refl _
  le_trans _ _ _ := UInt64.le_trans
  le_total := UInt64.le_total

/-- **The static fields are those after these counts.**  The first median is computed from
the one behind the `REPEAT_STATS`-th on. -/
structure RepeatStats.After (adapt : UInt64 → UInt32) (s : RepeatStats) (counts : List UInt64) :
    Prop where
  ring : Window.Holds repeatStats s.stats.toList counts
  nextStat : s.nextStat.toNat = counts.length % repeatStats
  nstats : s.nstats.toNat = min counts.length repeatStats
  start : counts.length ≤ repeatStats → s.medianNumRepeats = 2 ∧ s.adaptedRepeatP = 0x3F400000
  median : repeatStats < counts.length →
    IsMedian s.medianNumRepeats (Window.last repeatStats counts) ∧
      s.adaptedRepeatP = adapt s.medianNumRepeats

variable {adapt : UInt64 → UInt32}

/-- **The static fields at the start** are those after no counts: an empty ring, the median
2, and the probability 0.75. -/
theorem RepeatStats.after_initial : RepeatStats.initial.After adapt [] where
  ring := ⟨rfl, fun k hk => absurd hk (by simp)⟩
  nextStat := rfl
  nstats := rfl
  start _ := ⟨rfl, rfl⟩
  median h := absurd h (by decide)

section

variable {s : RepeatStats} {counts : List UInt64}

/-- The next slot is one of the ring, so `UpdateStats` does not write behind it.  -/
theorem RepeatStats.After.nextStat_lt (h : s.After adapt counts) :
    s.nextStat.toNat < repeatStats := by
  rw [h.nextStat]
  exact Nat.mod_lt _ (by decide)

/-- The slot that is written is the one of the next count. -/
theorem RepeatStats.After.ring_set (h : s.After adapt counts) (lastNumRepeats : UInt64) :
    Window.Holds repeatStats (s.stats.set ⟨s.nextStat.toNat, h.nextStat_lt⟩ lastNumRepeats).toList
      (counts ++ [lastNumRepeats]) := by
  rw [List.Vector.toList_set]
  dsimp only
  rw [h.nextStat]
  exact h.ring.push (by decide) lastNumRepeats

/-- The index of the next slot goes round with the counts.  -/
theorem RepeatStats.After.toNat_nextStat (h : s.After adapt counts) :
    ((s.nextStat + 1) % UInt64.ofNat repeatStats).toNat = (counts.length + 1) % repeatStats := by
  have hnext := h.nextStat
  rw [UInt64.toNat_mod, UInt64.toNat_add, UInt64.toNat_one,
    show (UInt64.ofNat repeatStats).toNat = repeatStats from rfl]
  simp only [repeatStats] at *
  omega

/-- `nstats` stops at the size of the ring, so the test for it says whether there were that
many counts before this one.  -/
theorem RepeatStats.After.full_iff (h : s.After adapt counts) :
    s.nstats ≥ UInt64.ofNat repeatStats ↔ repeatStats ≤ counts.length := by
  rw [ge_iff_le, UInt64.le_iff_toNat_le, h.nstats,
    show (UInt64.ofNat repeatStats).toNat = repeatStats from rfl]
  omega

/-- **`UpdateStats` writes to a slot of the ring, and counts one more.** Once the ring is
full the median of its slots is computed anew, and from it the probability.  -/
theorem RepeatStats.After.updateStats (h : s.After adapt counts) (lastNumRepeats : UInt64) :
    ∃ s', updateStats adapt lastNumRepeats s = some s' ∧
      s'.After adapt (counts ++ [lastNumRepeats]) := by
  have hring := h.ring_set lastNumRepeats
  have hlength : (counts ++ [lastNumRepeats]).length = counts.length + 1 := by
    rw [List.length_append, List.length_singleton]
  rw [Mutators.updateStats, dif_pos h.nextStat_lt]
  dsimp only
  generalize s.stats.set ⟨s.nextStat.toNat, h.nextStat_lt⟩ lastNumRepeats = stats at hring ⊢
  by_cases hfull : s.nstats ≥ UInt64.ofNat repeatStats
  · have hcounts := h.full_iff.1 hfull
    have hi : repeatStats / 2 < (stats.toList.mergeSort (· ≤ ·)).length := by
      rw [List.length_mergeSort, List.Vector.toList_length]
      decide
    rw [if_pos hfull, List.getElem?_eq_getElem hi, Option.map_some]
    refine ⟨_, rfl, hring, ?_, ?_, fun hstart => ?_, fun _ => ⟨?_, rfl⟩⟩
    · rw [h.toNat_nextStat, hlength]
    · rw [h.nstats, hlength]
      omega
    · rw [hlength] at hstart
      omega
    -- the new ring, of which the slots are sorted, is full
    · refine IsMedian.perm (isMedian_mergeSort ?_ ?_) (hring.perm (by omega))
      · rw [List.Vector.toList_length]
        decide
      · rw [List.Vector.toList_length]
        exact List.getElem?_eq_getElem hi
  · have hcounts := mt h.full_iff.2 hfull
    rw [if_neg hfull]
    refine ⟨_, rfl, hring, ?_, ?_, fun _ => h.start (by omega), fun hmedian => ?_⟩
    · rw [h.toNat_nextStat, hlength]
    · have hnstats := h.nstats
      rw [UInt64.toNat_add, UInt64.toNat_one, hlength]
      simp only [repeatStats] at *
      omega
    · rw [hlength] at hmedian
      omega

end

/-! ### Runs -/

variable {τ : Type} {mutator : Mutator}

/-- One event more, counted on what was counted before it.  -/
theorem counted_snoc (tr : List (AdaptEvent τ)) (event : AdaptEvent τ) :
    counted (tr ++ [event]) = (counted tr).next event := by
  rw [counted, List.foldl_append]
  rfl

/-- **The invariant of the sessions**: the static fields are those after the counts, what is
saved are those of the time when it was saved, and a mutator mutates a sample at least once. -/
structure AdaptOk (adapt : UInt64 → UInt32) (mutator : Mutator) (c : Counted)
    (s : Adaptation τ) : Prop where
  now : s.stats.After adapt c.now
  saved : ∀ bytes, s.saved = some bytes →
    ∃ stats : RepeatStats, bytes = saveGlobalState stats mutator ∧ stats.After adapt c.saved
  last : ∀ t lastNumRepeats, s.lastNumRepeats t = some lastNumRepeats → 0 < lastNumRepeats
  pos : ∀ count ∈ c.now, 0 < count
  savedPos : ∀ count ∈ c.saved, 0 < count

/-- The invariant holds at the start: nothing was counted, and nothing saved.  -/
theorem adaptOk_init : AdaptOk adapt mutator ⟨[], []⟩ (Adaptation.init τ) where
  now := RepeatStats.after_initial
  saved _ h := by cases h
  last _ _ h := by cases h
  pos _ h := absurd h List.not_mem_nil
  savedPos _ h := absurd h List.not_mem_nil

variable [DecidableEq τ]

/-- **A step keeps the invariant.** A mutation sets the count of its own thread only, and it
is positive; a notification adds that count to the ring; a save writes the fields of the
moment, and a restore reads these back, so the counts in between are those that are lost.
-/
theorem AdaptOk.step {c : Counted} {s s' : Adaptation τ} {event : AdaptEvent τ}
    (hrepeats : mutator.any (· = .repeatMutator) = true) (h : AdaptOk adapt mutator c s)
    (hstep : AdaptStep adapt mutator s event s') : AdaptOk adapt mutator (c.next event) s' := by
  cases hstep with
  | @mutate t lastNumRepeats hpos =>
      refine ⟨h.now, h.saved, fun u n hn => ?_, h.pos, h.savedPos⟩
      dsimp only at hn
      by_cases hu : u = t
      · subst hu
        rw [Function.update_self] at hn
        exact Option.some.inj hn ▸ hpos
      · rw [Function.update_of_ne hu] at hn
        exact h.last u n hn
  | @notify t lastNumRepeats stats hlast hupdate =>
      obtain ⟨stats', hupdate', hafter⟩ := h.now.updateStats lastNumRepeats
      obtain rfl := Option.some.inj (hupdate.symm.trans hupdate')
      refine ⟨hafter, h.saved, h.last, fun count hcount => ?_, h.savedPos⟩
      rcases List.mem_append.1 hcount with hcount | hcount
      · exact h.pos count hcount
      · exact List.mem_singleton.1 hcount ▸ h.last t lastNumRepeats hlast
  | save =>
      refine ⟨h.now, fun bytes hbytes => ?_, h.last, h.pos, h.pos⟩
      exact ⟨s.stats, (Option.some.inj hbytes).symm, h.now⟩
  | @restore bytes rest stats hsaved hload =>
      obtain ⟨stats', rfl, hafter⟩ := h.saved bytes hsaved
      have hdecodes := (decodes_loadGlobalState mutator stats' RepeatStats.initial).exact rest
      rw [if_pos hrepeats] at hdecodes
      obtain rfl : stats' = stats := congrArg Prod.fst (Except.ok.inj (hdecodes.symm.trans hload))
      exact ⟨hafter, h.saved, fun _ _ hn => (by cases hn), h.savedPos, h.savedPos⟩

/-- So it holds after any number of sessions, of any number of threads: by induction on the
run, with one case for each kind of event.  -/
theorem adaptOk_run {tr : List (AdaptEvent τ)} {s : Adaptation τ}
    (hrepeats : mutator.any (· = .repeatMutator) = true)
    (h : Run (AdaptStep adapt mutator) (Adaptation.init τ) tr s) :
    AdaptOk adapt mutator (counted tr) s := by
  induction h with
  | refl => exact adaptOk_init
  | snoc _ hstep ih =>
      rw [counted_snoc]
      exact ih.step hrepeats hstep

/-- **The probability is that of the median of the last counts.**  In any number of
sessions, with any number of threads, `UpdateStats` never writes behind the ring; up to the
`REPEAT_STATS`-th count the probability is the one from the start, and from the next one on
the median is that of the last `REPEAT_STATS` counts, those of the sessions before among
them, and it is not zero, so the division by it is one by a positive number. -/
theorem repeats_adapted {tr : List (AdaptEvent τ)} {s : Adaptation τ}
    (hrepeats : mutator.any (· = .repeatMutator) = true)
    (h : Run (AdaptStep adapt mutator) (Adaptation.init τ) tr s) :
    (∀ lastNumRepeats, ∃ stats, updateStats adapt lastNumRepeats s.stats = some stats) ∧
      ((counted tr).now.length ≤ repeatStats →
        s.stats.medianNumRepeats = 2 ∧ s.stats.adaptedRepeatP = 0x3F400000) ∧
      (repeatStats < (counted tr).now.length →
        IsMedian s.stats.medianNumRepeats (Window.last repeatStats (counted tr).now) ∧
          0 < s.stats.medianNumRepeats ∧
          s.stats.adaptedRepeatP = adapt s.stats.medianNumRepeats) := by
  have hok := adaptOk_run hrepeats h
  refine ⟨fun lastNumRepeats => ?_, hok.now.start, fun hlength => ?_⟩
  · obtain ⟨stats, hupdate, _⟩ := hok.now.updateStats lastNumRepeats
    exact ⟨stats, hupdate⟩
  · obtain ⟨hmedian, hadapt⟩ := hok.now.median hlength
    exact ⟨hmedian, hok.pos _ (List.mem_of_mem_drop hmedian.mem), hadapt⟩

/-- A sample found new coverage again and again: each time the number of its mutations is
put into the ring, and nothing else changes.  -/
theorem exists_run_notified {s : Adaptation τ} {counts : List UInt64} {t : τ} {n : UInt64}
    (h : s.stats.After adapt counts) (hlast : s.lastNumRepeats t = some n) (k : ℕ) :
    ∃ stats : RepeatStats, Run (AdaptStep adapt mutator) s (List.replicate k (.notified t n))
      { s with stats } ∧ stats.After adapt (counts ++ List.replicate k n) := by
  induction k with
  | zero => exact ⟨s.stats, Run.refl, by rwa [List.replicate_zero, List.append_nil]⟩
  | succ k ih =>
      obtain ⟨stats, hrun, hafter⟩ := ih
      obtain ⟨stats', hupdate, hafter'⟩ := hafter.updateStats n
      rw [List.append_assoc, ← List.replicate_succ'] at hafter'
      refine ⟨stats', ?_, hafter'⟩
      rw [List.replicate_succ']
      exact hrun.snoc (AdaptStep.notify hlast hupdate)

/-- A mutator that repeats another one. -/
def repeatLeaf : Mutator := .node .repeatMutator [.node .leaf []]

/-- Twelve samples of three mutations each, in a session that is restored: the median of the
last eleven is 3, and the probability is what the formula of the source gives for it.  -/
theorem repeats_adapted_restored : ∃ s : Adaptation Unit,
    Run (AdaptStep newAdaptedRepeatP repeatLeaf) (Adaptation.init Unit)
      ([.mutated () 3] ++ List.replicate 12 (.notified () 3) ++ [.saved] ++ [.restored]) s ∧
    s.stats.medianNumRepeats = 3 ∧ s.stats.adaptedRepeatP = newAdaptedRepeatP 3 := by
  let mutated : Adaptation Unit :=
    ⟨RepeatStats.initial, Function.update (fun _ => none) () (some 3), none⟩
  have hmutate : AdaptStep newAdaptedRepeatP repeatLeaf (Adaptation.init Unit) (.mutated () 3)
      mutated := AdaptStep.mutate (by decide)
  have hstart : mutated.stats.After newAdaptedRepeatP [] := RepeatStats.after_initial
  have hlast : mutated.lastNumRepeats () = some 3 := rfl
  obtain ⟨stats, hrun, _⟩ := exists_run_notified hstart hlast 12
  have hload : loadGlobalState repeatLeaf RepeatStats.initial
      (saveGlobalState stats repeatLeaf ++ []) = .ok (stats, []) := by
    have hdecodes := (decodes_loadGlobalState repeatLeaf stats RepeatStats.initial).exact []
    rwa [if_pos (by decide)] at hdecodes
  have hsave := ((Run.single hmutate).trans hrun).snoc (AdaptStep.save _)
  have hrestore := hsave.snoc (AdaptStep.restore rfl hload)
  refine ⟨_, hrestore, ?_⟩
  obtain ⟨_, _, hmedian⟩ := repeats_adapted (by decide) hrestore
  have hcounts : Window.last repeatStats (counted
      ([AdaptEvent.mutated () 3] ++ List.replicate 12 (AdaptEvent.notified () 3) ++
        [AdaptEvent.saved] ++ [AdaptEvent.restored])).now = List.replicate repeatStats 3 := rfl
  obtain ⟨hmedian, -, hadapted⟩ := hmedian (by decide)
  have hthree := List.eq_of_mem_replicate (hcounts ▸ hmedian.mem)
  exact ⟨hthree, hadapted.trans (congrArg newAdaptedRepeatP hthree)⟩

end Mutators
end Jackalope
