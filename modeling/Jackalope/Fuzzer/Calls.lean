/-
# Calls of `RunSample`

What one call of `RunSample` does to the coverage and to the corpus, as a function
of what its runs returned.  `callOf` collects from a trace what the current call of
a thread has shown: its sample as `MinimizeSample` has left it, the outcomes of its
runs, its merges into `fuzzer_coverage`, its files and its entries.  `Thread.CallOk`
says, for each place in the code, what has been collected when the thread is there;
the running intersection and union of the retry loop are in it.

Labels alone would say little about what is saved, so `CallOk` speaks of the shared
state as well: the file with the number that the call was given holds the sample of
the call, and the entry that it pushed is in the corpus with this sample and this file.
Both stay so whatever the other threads do (`Step.keeps`).  Conversely the coverage,
the files and the corpus change in steps with the labels `merged`, `numbered` and
`pushed` only (`Step.fuzzerCoverage`, `Step.sampleFiles`, `Step.allEntries`), so a call
that shows none of them has changed nothing.  `calls_credited` reads the result off at
the return.

Credit is exclusive because `fuzzer_coverage` only grows: what one call is credited
with is in it from then on, and nobody is credited with what is in it.
-/

import Jackalope.Fuzzer.Sessions
import Jackalope.Fuzzer.Trimming
import Mathlib.Data.Set.Lattice
import Mathlib.Order.CompletePartialOrder

namespace Jackalope
namespace Fuzzer

open Foundation

variable {τ μ : Type}

/-! ### What is seen of a call -/

/-- What one call of `RunSample` has shown; `sample` is `*sample`, which
`MinimizeSample` changes in place. -/
structure Call where
  sample : Sample
  threadCoverage : Coverage
  outcomes : List Outcome
  merges : List (Coverage × Coverage × Coverage)
  numbered : List ℕ
  pushed : List (ℕ × Sample)

/-- A call that has just begun. -/
def Call.begin (sample : Sample) (threadCoverage : Coverage) : Call :=
  ⟨sample, threadCoverage, [], [], [], []⟩

/-- The coverage that `InterestingSample` left in `stableCoverage`. -/
def Call.newStable (c : Call) : Coverage :=
  match c.merges.getLast? with
  | some (_, newStable, _) => newStable
  | none => []

section

variable [TinyInst]

/-- The call after one more event of its thread.  A test run of `MinimizeSample` that
keeps the new stable coverage replaces the sample. -/
def Call.see (cfg : Config μ) (c : Call) : Event τ → Call
  | .called _ sample threadCoverage => Call.begin sample threadCoverage
  | .ran _ .reproduce _ outcome => { c with outcomes := c.outcomes ++ [outcome] }
  | .ran _ .minimize testSample outcome =>
      if outcome.result = .ok ∧ keepsTest cfg.isReturnValueInteresting c.newStable outcome = true then
        { c with sample := testSample }
      else c
  | .merged _ before newStable after => { c with merges := c.merges ++ [(before, newStable, after)] }
  | .numbered _ fileindex => { c with numbered := c.numbered ++ [fileindex] }
  | .pushed _ _ e sample => { c with pushed := c.pushed ++ [(e, sample)] }
  | _ => c

end

/-- The offsets that some run of the call reached. -/
def Call.union (c : Call) : Set (Bytes × UInt64) := {p | ∃ o ∈ c.outcomes, p ∈ pairs o.coverage}

/-- The offsets that every run of the call reached. -/
def Call.inter (c : Call) : Set (Bytes × UInt64) := {p | ∀ o ∈ c.outcomes, p ∈ pairs o.coverage}

/-- The call has made no file and no entry. -/
structure Call.Unsaved (c : Call) : Prop where
  numbered : c.numbered = []
  pushed : c.pushed = []

/-- The call has touched neither the coverage nor the corpus. -/
structure Call.Quiet (c : Call) : Prop extends c.Unsaved where
  merges : c.merges = []

/-- **When a call goes on to judge its sample**: all runs returned OK, the first
return value is interesting, and the first coverage is not empty and, without
`incremental_coverage`, has something new for the thread. -/
structure Call.Reproduced (cfg : Config μ) (c : Call) : Prop where
  ok : ∀ o ∈ c.outcomes, o.result = .ok
  first : ∃ o rest, c.outcomes = o :: rest ∧ cfg.isReturnValueInteresting o.returnValue = true ∧
    o.coverage ≠ [] ∧
    (cfg.incrementalCoverage = true ∨ ¬ pairs o.coverage ⊆ pairs c.threadCoverage)

/-- **What a call that goes on does**: it makes all its retries, merges the union of
its coverages in one section, and is credited with what is stable and was not there
before. -/
structure Call.Credited (cfg : Config μ) (c : Call) (hasNew : Bool) : Prop where
  length : c.outcomes.length = cfg.coverageReproduceRetries + 1
  reproduced : c.Reproduced cfg
  merged : ∃ before newStable after, c.merges = [(before, newStable, after)] ∧
    pairs after = pairs before ∪ c.union ∧ pairs newStable = c.inter \ pairs before ∧
    (hasNew = true ↔ ¬ c.inter ⊆ pairs before)

/-- What a call trims, writes and pushes afterwards does not change its credit, which is a
matter of its runs and of its merge. -/
theorem Call.Credited.later {cfg : Config μ} {c : Call} {hasNew : Bool} (h : c.Credited cfg hasNew)
    (sample : Sample) (numbered : List ℕ) (pushed : List (ℕ × Sample)) :
    { c with sample := sample, numbered := numbered, pushed := pushed }.Credited cfg hasNew :=
  ⟨h.length, ⟨h.reproduced.ok, h.reproduced.first⟩, h.merged⟩

/-! ### What is saved of a call -/

/-- The number is taken, and its file holds the sample. -/
def Shared.HasFile (f : Shared) (fileindex : ℕ) (sample : Sample) : Prop :=
  fileindex < f.numSamples ∧ f.sampleFiles fileindex = some sample

/-- **The call saved its sample once**: it made one file, which holds the sample, and
pushed one entry, which is in the corpus with the sample and the file. -/
structure Call.Saved (f : Shared) (c : Call) : Prop where
  saved : ∃ e fileindex, c.numbered = [fileindex] ∧ c.pushed = [(e, c.sample)] ∧
    f.HasFile fileindex c.sample ∧ entryOwns f.allEntries e fileindex c.sample

/-- The call saved its sample once if it has new coverage, and nothing otherwise. -/
structure Call.SavedIf (f : Shared) (c : Call) (hasNew : Bool) : Prop where
  saved : hasNew = true → c.Saved f
  unsaved : hasNew = false → c.Unsaved

/-- How far the call has got in `SaveSample`. -/
def Call.SavedTo (f : Shared) (c : Call) : Saving → Prop
  | .ranges | .number => c.Unsaved
  | .create fileindex | .push fileindex _ =>
      c.numbered = [fileindex] ∧ c.pushed = [] ∧ f.HasFile fileindex c.sample

/-- What is stored in `f` is stored in `f'`. -/
structure Shared.Keeps (f f' : Shared) : Prop where
  hasFile : ∀ {fileindex sample}, f.HasFile fileindex sample → f'.HasFile fileindex sample
  entryOwns : ∀ {e fileindex sample}, entryOwns f.allEntries e fileindex sample →
    entryOwns f'.allEntries e fileindex sample

/-- A call that saved its sample has saved it from then on: numbers are not given again,
files are not written again, and entries keep their names.  -/
theorem Call.Saved.keeps {f f' : Shared} {c : Call} (h : c.Saved f) (hk : f.Keeps f') :
    c.Saved f' := by
  obtain ⟨e, fileindex, hnumbered, hpushed, hfile, hentry⟩ := h.saved
  exact ⟨e, fileindex, hnumbered, hpushed, hk.hasFile hfile, hk.entryOwns hentry⟩

/-- The same where the call saved its sample only if it was credited with coverage.  -/
theorem Call.SavedIf.keeps {f f' : Shared} {c : Call} {hasNew : Bool} (h : c.SavedIf f hasNew)
    (hk : f.Keeps f') : c.SavedIf f' hasNew :=
  ⟨fun hnew => (h.saved hnew).keeps hk, h.unsaved⟩

/-- The same on the way through `SaveSample`, as far as the call has come.  -/
theorem Call.SavedTo.keeps {f f' : Shared} {c : Call} {saving : Saving} (h : c.SavedTo f saving)
    (hk : f.Keeps f') : c.SavedTo f' saving := by
  cases saving with
  | ranges | number => exact h
  | create | push => exact ⟨h.1, h.2.1, hk.hasFile h.2.2⟩

section

variable [TinyInst] [DecidableEq τ]

/-- What the last call of a thread has shown. -/
def callOf (cfg : Config μ) (t : τ) (tr : List (Event τ)) : Call :=
  tr.foldl (fun c event => if event.thread = t then c.see cfg event else c)
    (Call.begin Sample.empty [])

/-- An event belongs to the call that its thread is in, and to no other one.  -/
theorem callOf_snoc (cfg : Config μ) (t : τ) (tr : List (Event τ)) (event : Event τ) :
    callOf cfg t (tr ++ [event]) =
      if event.thread = t then (callOf cfg t tr).see cfg event else callOf cfg t tr := by
  rw [callOf, List.foldl_append]
  rfl

end

/-- One more run adds its coverage to what some run has reached.  -/
theorem union_snoc (c : Call) (outcome : Outcome) :
    ({ c with outcomes := c.outcomes ++ [outcome] } : Call).union =
      c.union ∪ pairs outcome.coverage := by
  ext p
  simp [Call.union, or_and_right, exists_or]

/-- One more run takes away what it has not reached.  -/
theorem inter_snoc (c : Call) (outcome : Outcome) :
    ({ c with outcomes := c.outcomes ++ [outcome] } : Call).inter =
      c.inter ∩ pairs outcome.coverage := by
  ext p
  simp [Call.inter, or_imp, forall_and]

/-! ### Where a thread is in its call -/

/-- **What a call has shown when its thread is here.**  Its sample is the thread's
`*sample`. -/
def Thread.CallOk (cfg : Config μ) (f : Shared) (th : Thread μ) (c : Call) : Prop :=
  match th.pc with
  | .running sample => c = Call.begin sample th.threadCoverage
  | .retrying sample i stable total =>
      sample = c.sample ∧ i < cfg.coverageReproduceRetries ∧ c.outcomes.length = i + 1 ∧
        c.Reproduced cfg ∧ pairs stable = c.inter ∧ pairs total = c.union ∧ c.Quiet
  | .judging sample stable var _ =>
      sample = c.sample ∧ c.outcomes.length = cfg.coverageReproduceRetries + 1 ∧
        c.Reproduced cfg ∧ pairs stable = c.inter ∧ pairs var = c.union \ c.inter ∧ c.Quiet
  | .minimizing sample _ _ stable _ _ =>
      sample = c.sample ∧ stable = c.newStable ∧ c.Credited cfg true ∧ c.Unsaved
  | .reporting sample _ _ => sample = c.sample ∧ c.Credited cfg true ∧ c.Unsaved
  | .saving (.runSample _ _) sample saving =>
      sample = c.sample ∧ c.Credited cfg true ∧ c.SavedTo f saving
  | .finishing hasNew _ => c.Credited cfg hasNew ∧ c.SavedIf f hasNew
  | .returned result hasNew =>
      (c.Credited cfg hasNew ∧ c.SavedIf f hasNew ∧ result = .ok) ∨
        (¬ c.Reproduced cfg ∧ c.Quiet ∧ hasNew = false)
  | _ => True

/-- What other threads store does not matter: the entry and the file of the call stay what
they are, and the rest of what is said of the call is about the thread.  -/
theorem Thread.CallOk.keeps {cfg : Config μ} {f f' : Shared} {th : Thread μ} {c : Call}
    (h : th.CallOk cfg f c) (hk : f.Keeps f') : th.CallOk cfg f' c := by
  obtain ⟨pc, job, discardSample, threadCoverage⟩ := th
  cases pc with
  | saving savingFor sample saving =>
      cases savingFor with
      | runSample => exact ⟨h.1, h.2.1, h.2.2.keeps hk⟩
      | processSample => trivial
  | finishing => exact ⟨h.1, h.2.keeps hk⟩
  | returned => exact Or.imp_left (fun hc => ⟨hc.1, hc.2.1.keeps hk, hc.2.2⟩) h
  | _ => exact h

section

variable [TinyInst]

/-- **What `InterestingSample` computes**, in terms of the pairs: the new stable and the new
variable coverage are what was not covered, and both are added to what is.  -/
theorem interestingSample_eq {fuzzerCoverage stable var after newStable newVar : Coverage}
    (h : interestingSample fuzzerCoverage stable var = (after, newStable, newVar)) :
    pairs after = pairs fuzzerCoverage ∪ pairs newStable ∪ pairs newVar ∧
      pairs newStable = pairs stable \ pairs fuzzerCoverage ∧
      pairs newVar = pairs var \ pairs fuzzerCoverage ∧
      (newStable = [] ↔ pairs stable ⊆ pairs fuzzerCoverage) := by
  unfold interestingSample at h
  cases h
  exact ⟨by rw [pairs_merge, pairs_merge], pairs_difference _ _, pairs_difference _ _,
    difference_eq_nil _ _⟩

/-- The head of the retry loop, after `i` retries: the thread runs the sample once more, or
goes to `InterestingSample` with what all runs have in common.  -/
theorem retryOrJudge_callOk {cfg : Config μ} {f : Shared} {th : Thread μ} {c : Call} {i : ℕ}
    {stable total : Coverage} (hi : i ≤ cfg.coverageReproduceRetries)
    (hlength : c.outcomes.length = i + 1) (hr : c.Reproduced cfg) (hstable : pairs stable = c.inter)
    (htotal : pairs total = c.union) (hq : c.Quiet) :
    { th with pc := retryOrJudge cfg c.sample i stable total }.CallOk cfg f c := by
  rcases retryOrJudge_eq cfg c.sample i stable total with ⟨hlt, heq⟩ | ⟨hge, heq⟩ <;> rw [heq]
  · exact ⟨rfl, hlt, hlength, hr, hstable, htotal, hq⟩
  · refine ⟨rfl, by omega, hr, hstable, ?_, hq⟩
    rw [pairs_difference, hstable, htotal]

/-- After the first run.  The call has one outcome, and no merge, push or file: either the
fuzzer saw nothing new and the call returns, or it goes on to the retries, with the coverage
of the one run both as what is stable and as the total.  -/
theorem afterFirstRun_callOk {cfg : Config μ} {f : Shared} {th : Thread μ} (sample : Sample)
    (outcome : Outcome) :
    { th with pc := afterFirstRun cfg th.threadCoverage sample outcome }.CallOk cfg f
      ⟨sample, th.threadCoverage, [outcome], [], [], []⟩ := by
  have hquiet : Call.Quiet ⟨sample, th.threadCoverage, [outcome], [], [], []⟩ := ⟨⟨rfl, rfl⟩, rfl⟩
  unfold afterFirstRun
  split
  · rename_i h
    exact Or.inr ⟨fun hr => h (hr.ok outcome (List.mem_singleton_self _)), hquiet, rfl⟩
  rename_i hok
  split
  · rename_i h
    refine Or.inr ⟨fun hr => ?_, hquiet, rfl⟩
    obtain ⟨o, rest, ho, hret, -⟩ := hr.first
    cases ho
    rw [h] at hret
    cases hret
  rename_i hret
  split
  · rename_i h
    refine Or.inr ⟨fun hr => ?_, hquiet, rfl⟩
    obtain ⟨o, rest, ho, -, hne, -⟩ := hr.first
    cases ho
    exact hne h
  rename_i hne
  split
  · rename_i h
    refine Or.inr ⟨fun hr => ?_, hquiet, rfl⟩
    obtain ⟨o, rest, ho, -, -, hinc | hnew⟩ := hr.first
    · rw [h.1] at hinc
      cases hinc
    · cases ho
      exact hnew ((difference_eq_nil _ _).1 h.2)
  rename_i hnew
  refine @retryOrJudge_callOk _ _ _ _ _ ⟨sample, th.threadCoverage, [outcome], [], [], []⟩ _ _ _
    (Nat.zero_le _) rfl ⟨?_, outcome, [], rfl, ?_, hne, ?_⟩ ?_ ?_ hquiet
  · simpa using hok
  · simpa using hret
  · rw [not_and_or, difference_eq_nil] at hnew
    simpa using hnew
  · ext p
    simp [Call.inter]
  · ext p
    simp [Call.union]

/-- After a retry.  The stable coverage is what all runs up to now have in common and the
total is what any of them has seen, and the call still has no merge, push or file; the last
retry leads to `InterestingSample`. -/
theorem afterRetry_callOk {cfg : Config μ} {f : Shared} {th : Thread μ} {c : Call} {i : ℕ}
    {stable total : Coverage} (outcome : Outcome)
    (hi : i < cfg.coverageReproduceRetries) (hlength : c.outcomes.length = i + 1)
    (hr : c.Reproduced cfg) (hstable : pairs stable = c.inter) (htotal : pairs total = c.union)
    (hq : c.Quiet) :
    { th with pc := afterRetry cfg c.sample i stable total outcome }.CallOk cfg f
      { c with outcomes := c.outcomes ++ [outcome] } := by
  have hquiet : ({ c with outcomes := c.outcomes ++ [outcome] } : Call).Quiet :=
    ⟨⟨hq.numbered, hq.pushed⟩, hq.merges⟩
  unfold afterRetry
  split
  · rename_i h
    refine Or.inr ⟨fun hr' => h (hr'.ok outcome ?_), hquiet, rfl⟩
    exact List.mem_append_right _ (List.mem_singleton_self _)
  rename_i hok
  obtain ⟨o, rest, ho, hfirst⟩ := hr.first
  refine @retryOrJudge_callOk _ _ _ _ _ { c with outcomes := c.outcomes ++ [outcome] } _ _ _
    hi (by simp [hlength]) ⟨?_, o, rest ++ [outcome], ?_, hfirst⟩ ?_ ?_ hquiet
  · intro o' ho'
    rcases List.mem_append.1 ho' with ho' | ho'
    · exact hr.ok o' ho'
    · rw [List.mem_singleton.1 ho']
      exact not_not.1 hok
  · rw [ho]
    rfl
  · rw [pairs_intersection, hstable, inter_snoc]
  · rw [pairs_merge, htotal, union_snoc]

/-- After `InterestingSample`. The call has its one merge; it goes on with the sample
exactly if something stable was new, and returns otherwise, with nothing pushed or written.
-/
theorem afterInteresting_callOk {cfg : Config μ} {f : Shared} {th : Thread μ} {c : Call}
    {stable var total fuzzerCoverage after newStable newVar : Coverage}
    (h : interestingSample fuzzerCoverage stable var = (after, newStable, newVar))
    (hlength : c.outcomes.length = cfg.coverageReproduceRetries + 1) (hr : c.Reproduced cfg)
    (hstable : pairs stable = c.inter) (hvar : pairs var = c.union \ c.inter) (hq : c.Quiet) :
    { th with pc := afterInteresting cfg th.job c.sample newStable newVar total }.CallOk cfg f
      { c with merges := c.merges ++ [(fuzzerCoverage, newStable, after)] } := by
  obtain ⟨hafter, hnewStable, hnewVar, hnil⟩ := interestingSample_eq h
  have hsub : c.inter ⊆ c.union := by
    obtain ⟨o, rest, ho, -⟩ := hr.first
    intro p hp
    exact ⟨o, by rw [ho]; exact List.mem_cons_self, hp o (by rw [ho]; exact List.mem_cons_self)⟩
  have hmerges : c.merges ++ [(fuzzerCoverage, newStable, after)] =
      [(fuzzerCoverage, newStable, after)] := by
    rw [hq.merges]
    rfl
  rw [hmerges]
  have hunsaved : Call.Unsaved { c with merges := [(fuzzerCoverage, newStable, after)] } :=
    ⟨hq.numbered, hq.pushed⟩
  have hcredited : ∀ hasNew, (hasNew = true ↔ newStable ≠ []) → Call.Credited cfg
      { c with merges := [(fuzzerCoverage, newStable, after)] } hasNew := by
    intro hasNew hnew
    refine ⟨hlength, ⟨hr.ok, hr.first⟩, _, _, _, rfl, ?_, ?_, ?_⟩
    · rw [hafter, hnewStable, hnewVar, hstable, hvar]
      show pairs fuzzerCoverage ∪ c.inter \ pairs fuzzerCoverage ∪
        (c.union \ c.inter) \ pairs fuzzerCoverage = pairs fuzzerCoverage ∪ c.union
      ext p
      have hp := @hsub p
      simp only [Set.mem_union, Set.mem_sdiff]
      tauto
    · rw [hnewStable, hstable]
      rfl
    · rw [hnew, Ne, hnil, hstable]
      rfl
  rcases afterInteresting_eq cfg th.job c.sample newStable newVar total with
    ⟨hnone, heq⟩ | ⟨hsome, heq⟩ | ⟨hsome, heq⟩ <;> rw [heq]
  · exact ⟨hcredited false (by simp [hnone]), nofun, fun _ => hunsaved⟩
  · exact ⟨rfl, rfl, hcredited true (by simp [hsome]), hunsaved⟩
  · exact ⟨rfl, hcredited true (by simp [hsome]), hunsaved⟩

/-- After a test run of `MinimizeSample`. A test that still has the new coverage becomes the
sample that the call will save, any other one is dropped, and the credit of the call stays
as it is.  -/
theorem afterTest_callOk {cfg : Config μ} {f : Shared} {th : Thread μ} {c : Call} {context : μ}
    {var total : Coverage} (testSample : Sample) (outcome : Outcome) (hc : c.Credited cfg true)
    (hu : c.Unsaved) :
    { th with pc := afterTest cfg c.sample testSample context c.newStable var total outcome }.CallOk
      cfg f (if outcome.result = RunResult.ok ∧
        keepsTest cfg.isReturnValueInteresting c.newStable outcome = true then
          { c with sample := testSample } else c) := by
  unfold afterTest
  split
  · rename_i hbad
    rw [if_neg fun h => hbad h.1]
    exact ⟨rfl, hc, hu⟩
  rename_i hok
  split
  · rename_i hrejected
    rw [← Bool.and_eq_false_iff, ← keepsTest] at hrejected
    rw [if_neg fun h => Bool.false_ne_true (hrejected.symm.trans h.2)]
    exact ⟨rfl, rfl, hc, hu⟩
  · rename_i hkept
    rw [← Bool.and_eq_false_iff, ← keepsTest, Bool.not_eq_false] at hkept
    rw [if_pos ⟨not_not.1 hok, hkept⟩]
    exact ⟨rfl, rfl, hc.later _ _ _, hu.numbered, hu.pushed⟩

/-- **A step of a thread on its own** shows of its call what it should: where the program
counter of the thread is, and what the call has done up to there, go on agreeing when the
event is added to the call.  -/
theorem LocalStep.callOk {cfg : Config μ} {f : Shared} {t : τ} {th th' : Thread μ}
    {event : Event τ} {c : Call} (h : LocalStep cfg t th event th') (hc : th.CallOk cfg f c) :
    th'.CallOk cfg f (c.see cfg event) := by
  obtain ⟨pc, job, discardSample, threadCoverage⟩ := th
  cases h with
  | wait | mutateDone => exact trivial
  | mutateTooLarge => exact hc
  | process | mutate => exact rfl
  | @firstRun sample outcome hpc =>
      obtain rfl : pc = _ := hpc
      obtain rfl : c = Call.begin sample threadCoverage := hc
      exact @afterFirstRun_callOk μ _ cfg f ⟨.jobDone, job, discardSample, threadCoverage⟩ sample
        outcome
  | @retry sample i stable total outcome hpc =>
      obtain rfl : pc = _ := hpc
      obtain ⟨rfl, hi, hlength, hr, hstable, htotal, hq⟩ := hc
      exact @afterRetry_callOk μ _ cfg f ⟨.jobDone, job, discardSample, threadCoverage⟩ c i stable
        total outcome hi hlength hr hstable htotal hq
  | @minimizeDone sample testSample context stable var total hpc =>
      obtain rfl : pc = _ := hpc
      obtain ⟨rfl, -, hcredited, hunsaved⟩ := hc
      exact ⟨rfl, hcredited, hunsaved⟩
  | @minimize sample _ test' context context' stable var total outcome hpc =>
      obtain rfl : pc = _ := hpc
      obtain ⟨rfl, rfl, hcredited, hunsaved⟩ := hc
      exact @afterTest_callOk μ _ cfg f ⟨.jobDone, job, discardSample, threadCoverage⟩ c context' var
        total test' outcome hcredited hunsaved
  | report hpc =>
      obtain rfl : pc = _ := hpc
      obtain ⟨rfl, hcredited, hunsaved⟩ := hc
      refine ⟨rfl, hcredited, ?_⟩
      cases cfg.trackRanges <;> exact hunsaved
  | @saveRanges savingFor sample outcome hpc =>
      obtain rfl : pc = _ := hpc
      cases savingFor
      · exact hc
      · exact trivial
  | finish hpc =>
      obtain rfl : pc = _ := hpc
      exact Or.inl ⟨hc.1, hc.2, rfl⟩
  | @processed origin sample result hasNew hpc hj =>
      rcases afterProcess_eq cfg sample result hasNew with heq | heq <;> simp only [heq] <;>
        exact trivial

/-! ### What a step stores -/

variable [DecidableEq τ]

/-- **Who makes sample files**: `SaveSample` under `output_mutex`, for the sample of its
thread and under the next number; and nobody else hands out numbers. -/
theorem Step.sampleFiles {cfg : Config μ} {s s' : System τ μ} {event : Event τ}
    (h : Step cfg s event s') (hs : s.shared.state ≠ .restoreNeeded) :
    (∃ t savingFor sample, event = .numbered t s.shared.numSamples ∧
      (s.threads t).pc = .saving savingFor sample .number ∧
      s'.shared = numberSample s.shared sample) ∨
    ((∀ t fileindex, event ≠ .numbered t fileindex) ∧
      s'.shared.numSamples = s.shared.numSamples ∧
      s'.shared.sampleFiles = s.shared.sampleFiles) := by
  cases h with
  | thread hl =>
      refine Or.inr ⟨?_, rfl, rfl⟩
      cases hl <;> exact nofun
  | getJob choices hpc hjob =>
      obtain ⟨f, hf, -, -, hnum, hfiles⟩ := synchronizeAndGetJob_files hjob
      rcases restoreIfNeeded_eq hf with ⟨-, rfl⟩ | ⟨saved, queue, hs', -⟩
      · exact Or.inr ⟨nofun, hnum, hfiles⟩
      · exact absurd hs' hs
  | number hpc => exact Or.inl ⟨_, _, _, rfl, hpc, rfl⟩
  | interesting | create | push | adjust => exact Or.inr ⟨nofun, rfl, rfl⟩
  | @done t hpc =>
      obtain ⟨hnum, hfiles, -⟩ := jobDone_files s.shared (s.threads t).job (s.threads t).discardSample
      exact Or.inr ⟨nofun, hnum, hfiles⟩

/-- **Who makes entries**: `SaveSample` under `queue_mutex`, for the sample and the file
of its thread; with any other label the corpus does not grow. -/
theorem Step.allEntries {cfg : Config μ} {s s' : System τ μ} {event : Event τ}
    (h : Step cfg s event s') (hs : s.shared.state ≠ .restoreNeeded) :
    (∃ t savingFor sample fileindex sampleIndex,
      event = .pushed t (s.threads t).job s.shared.allEntries.length sample ∧
      (s.threads t).pc = .saving savingFor sample (.push fileindex sampleIndex) ∧
      s'.shared = pushEntry s.shared (newEntry sample fileindex sampleIndex)) ∨
    ((∀ t job e sample, event ≠ .pushed t job e sample) ∧
      s'.shared.allEntries.length = s.shared.allEntries.length) := by
  cases h with
  | thread hl =>
      refine Or.inr ⟨?_, rfl⟩
      cases hl <;> exact nofun
  | getJob choices hpc hjob =>
      refine Or.inr ⟨nofun, ?_⟩
      obtain ⟨f, hf, hentries, -⟩ := synchronizeAndGetJob_entries hjob
      rcases restoreIfNeeded_eq hf with ⟨-, rfl⟩ | ⟨saved, queue, hs', -⟩
      · exact congrArg List.length hentries
      · exact absurd hs' hs
  | push hpc => exact Or.inl ⟨_, _, _, _, _, rfl, hpc, rfl⟩
  | interesting | number | create => exact Or.inr ⟨nofun, rfl⟩
  | adjust => exact Or.inr ⟨nofun, List.length_set⟩
  | @done t hpc =>
      refine Or.inr ⟨nofun, ?_⟩
      obtain ⟨-, ⟨hentries, -⟩ | ⟨e, -, hentries, -⟩⟩ :=
        jobDone_entries s.shared (s.threads t).job (s.threads t).discardSample
      · exact congrArg List.length hentries
      · exact (congrArg List.length hentries).trans (List.length_modify _ _ _)

/-- **What is stored stays stored.**  A new file has a number that no file of this
session has, and entries keep their samples and files. -/
theorem Step.keeps {cfg : Config μ} {restore : Bool} {inputs : List Sample}
    {disk : Option SavedState} {files : ℕ → Option Sample} {tr : List (Event τ)}
    {s s' : System τ μ} {event : Event τ} (h : Step cfg s event s')
    (hrun : Run (Step cfg) (System.init restore inputs disk files) tr s) :
    s.shared.Keeps s'.shared := by
  constructor
  · rintro fileindex sample ⟨hlt, hfile⟩
    by_cases hs : s.shared.state = .restoreNeeded
    · -- before the state is restored no number is taken
      rw [eq_init_of_restoreNeeded hrun hs] at hlt
      exact absurd hlt (Nat.not_lt_zero _)
    rcases h.sampleFiles hs with ⟨t, savingFor, other, -, -, heq⟩ | ⟨-, hnum, hfiles⟩
    · rw [heq]
      exact ⟨Nat.lt_succ_of_lt hlt, (Function.update_of_ne hlt.ne _ _).trans hfile⟩
    · exact ⟨hnum ▸ hlt, hfiles ▸ hfile⟩
  · rintro e fileindex sample ⟨entry, he, rfl, rfl⟩
    obtain ⟨entry', he', hsame⟩ := h.entries_kept hrun he
    exact ⟨entry', he', hsame.sampleFilename, hsame.sample⟩

/-! ### Every step of every call -/

/-- **Every step shows of the calls what it should.** The thread that takes the step goes on
with its call, which sees the event; the calls of the other threads see nothing, and what
they wait for in the shared state is not taken from them.  -/
theorem Step.callOk {cfg : Config μ} {restore : Bool} {inputs : List Sample}
    {disk : Option SavedState} {files : ℕ → Option Sample} {tr : List (Event τ)}
    {s s' : System τ μ} {event : Event τ}
    (hrun : Run (Step cfg) (System.init restore inputs disk files) tr s) (h : Step cfg s event s')
    (hs : ∀ t, (s.threads t).CallOk cfg s.shared (callOf cfg t tr)) (t : τ) :
    (s'.threads t).CallOk cfg s'.shared (callOf cfg t (tr ++ [event])) := by
  rw [callOf_snoc]
  have hkeeps := h.keeps hrun
  by_cases ht : event.thread = t
  · rw [if_pos ht]
    have hc := hs t
    cases h with
    | @thread u event th hl =>
        obtain rfl : u = t := hl.facts.thread.symm.trans ht
        rw [System.setThread_self]
        exact hl.callOk hc
    | getJob | done =>
        obtain rfl := ht
        show ((s.setThread _ _).threads _).CallOk cfg _ _
        rw [Event.thread, System.setThread_self]
        trivial
    | @interesting u sample stable var total after newStable newVar hpc hint =>
        obtain rfl : u = t := ht
        show ((s.setThread u _).threads u).CallOk cfg _ _
        rw [System.setThread_self]
        rw [Thread.CallOk, hpc] at hc
        obtain ⟨rfl, hlength, hr, hstable, hvar, hq⟩ := hc
        exact afterInteresting_callOk hint hlength hr hstable hvar hq
    | @number u savingFor sample hpc =>
        obtain rfl : u = t := ht
        show ((s.setThread u _).threads u).CallOk cfg _ _
        rw [System.setThread_self]
        rw [Thread.CallOk, hpc] at hc
        cases savingFor with
        | runSample =>
            obtain ⟨rfl, hcredited, hunsaved⟩ := hc
            refine ⟨rfl, hcredited.later _ _ _, ?_, hunsaved.pushed, Nat.lt_succ_self _,
              Function.update_self ..⟩
            exact congrArg (· ++ [s.shared.numSamples]) hunsaved.numbered
        | processSample => trivial
    | @create u savingFor sample fileindex hpc =>
        obtain rfl : u = t := ht
        show ((s.setThread u _).threads u).CallOk cfg _ _
        rw [System.setThread_self]
        rw [Thread.CallOk, hpc] at hc
        cases savingFor with
        | runSample => exact hc
        | processSample => trivial
    | @push u savingFor sample fileindex sampleIndex hpc =>
        obtain rfl : u = t := ht
        show ((s.setThread u _).threads u).CallOk cfg _ _
        rw [System.setThread_self]
        rw [Thread.CallOk, hpc] at hc
        cases savingFor with
        | runSample =>
            obtain ⟨rfl, hcredited, hnumbered, hpushed, hfile⟩ := hc
            refine ⟨hcredited.later _ _ _, fun _ => ⟨s.shared.allEntries.length, fileindex, hnumbered,
              ?_, hkeeps.hasFile hfile, ?_⟩, ?_⟩
            · exact congrArg (· ++ [(s.shared.allEntries.length, (callOf cfg u tr).sample)]) hpushed
            · exact ⟨_, List.getElem?_concat_length, rfl, rfl⟩
            · intro hunsaved
              cases hunsaved
        | processSample => trivial
    | @adjust u e entry result hasNew hpc hjob =>
        obtain rfl : u = t := ht
        show ((s.setThread u _).threads u).CallOk cfg _ _
        rw [System.setThread_self]
        cases tooManyFailures cfg (recordRun entry result hasNew) <;> trivial
  · rw [if_neg ht, h.thread_eq ht]
    exact (hs t).keeps hkeeps

/-- **At every moment of a run each thread is where its call is**: what its local variables
hold is what the runs of the call gave, and the numbers, files and entries that the call has
made are there.  -/
theorem callOk_of_run {cfg : Config μ} {restore : Bool} {inputs : List Sample}
    {disk : Option SavedState} {files : ℕ → Option Sample} {tr : List (Event τ)} {s : System τ μ}
    (h : Run (Step cfg) (System.init restore inputs disk files) tr s) (t : τ) :
    (s.threads t).CallOk cfg s.shared (callOf cfg t tr) := by
  induction h generalizing t with
  | refl => trivial
  | snoc hrun hstep ih => exact hstep.callOk hrun ih t

/-! ### Credit -/

/-- What an event credits its thread with. -/
def Event.credit : Event τ → Option Coverage
  | .merged _ _ newStable _ => some newStable
  | _ => none

/-- **Who changes the coverage**: `InterestingSample`, which adds to it what is new of the
stable and of the variable coverage, and the call that restores a session.  What is credited
as stable was not covered before.  -/
theorem Step.fuzzerCoverage {cfg : Config μ} {s s' : System τ μ} {event : Event τ}
    (h : Step cfg s event s') :
    (event.credit = none ∧ (s.shared.state ≠ .restoreNeeded →
      s'.shared.fuzzerCoverage = s.shared.fuzzerCoverage)) ∨
    ∃ t newStable newVar,
      event = .merged t s.shared.fuzzerCoverage newStable s'.shared.fuzzerCoverage ∧
      pairs s'.shared.fuzzerCoverage =
        pairs s.shared.fuzzerCoverage ∪ pairs newStable ∪ pairs newVar ∧
      Disjoint (pairs newStable) (pairs s.shared.fuzzerCoverage) := by
  cases h with
  | thread hl =>
      refine Or.inl ⟨?_, fun _ => rfl⟩
      cases hl <;> rfl
  | getJob choices hpc hjob =>
      refine Or.inl ⟨rfl, fun hne => ?_⟩
      obtain ⟨f₁, f₂, h₁, h₂, h₃⟩ := synchronizeAndGetJob_eq hjob
      obtain ⟨state, new, last, rfl, -, -⟩ := changeState_eq h₂
      rcases restoreIfNeeded_eq h₁ with ⟨-, rfl⟩ | ⟨saved, queue, hs, -⟩
      · rcases createJob_cases h₃ with ⟨-, rfl⟩ | ⟨e, -, -, -, rfl⟩ | ⟨i, file, rest, -, -, -, rfl⟩ |
          ⟨i, sample, rest, -, -, -, rfl⟩ | ⟨-, -, rfl⟩ <;> rfl
      · exact absurd hs hne
  | @interesting t sample stable var total after newStable newVar hpc hint =>
      obtain ⟨hafter, hnewStable, -, -⟩ := interestingSample_eq hint
      refine Or.inr ⟨t, newStable, newVar, rfl, hafter, ?_⟩
      rw [hnewStable]
      exact Set.disjoint_sdiff_left
  | number | create | push | adjust => exact Or.inl ⟨rfl, fun _ => rfl⟩
  | @done t hpc =>
      refine Or.inl ⟨rfl, fun _ => ?_⟩
      show (jobDone s.shared (s.threads t).job (s.threads t).discardSample).fuzzerCoverage = _
      cases (s.threads t).job with
      | fuzz e => cases (s.threads t).discardSample <;> rfl
      | processSample | wait => rfl

/-- **Credit is exclusive.** What was credited is in the coverage, and the next credit is
outside it, so no two calls of a run, of one thread or of two, are credited for the same
offset.  -/
theorem credits_disjoint {cfg : Config μ} {restore : Bool} {inputs : List Sample}
    {disk : Option SavedState} {files : ℕ → Option Sample} {tr : List (Event τ)} {s : System τ μ}
    (h : Run (Step cfg) (System.init restore inputs disk files) tr s) :
    ((tr.filterMap Event.credit).Pairwise fun a b => Disjoint (pairs a) (pairs b)) ∧
      ∀ c ∈ tr.filterMap Event.credit, pairs c ⊆ pairs s.shared.fuzzerCoverage := by
  induction h with
  | refl => exact ⟨List.Pairwise.nil, nofun⟩
  | @snoc tr s event s' hrun hstep ih =>
      obtain ⟨hpair, hsub⟩ := ih
      rw [List.filterMap_append]
      rcases hstep.fuzzerCoverage with ⟨hnone, hsame⟩ | ⟨t, newStable, newVar, rfl, hafter, hdisj⟩
      · have hnil : [event].filterMap Event.credit = [] := by simp [hnone]
        rw [hnil, List.append_nil]
        refine ⟨hpair, fun c hc => ?_⟩
        by_cases hs : s.shared.state = .restoreNeeded
        · rw [(nothing_of_restoreNeeded hrun hs).1] at hc
          cases hc
        · rw [hsame hs]
          exact hsub c hc
      · refine ⟨List.pairwise_append.2 ⟨hpair, List.pairwise_singleton _ _, ?_⟩, ?_⟩
        · intro a ha b hb
          obtain rfl : b = newStable := by simpa [Event.credit] using hb
          exact (hdisj.mono_right (hsub a ha)).symm
        · intro c hc
          rw [hafter]
          rcases List.mem_append.1 hc with hc | hc
          · exact (hsub c hc).trans (Set.subset_union_left.trans Set.subset_union_left)
          · obtain rfl : c = newStable := by simpa [Event.credit] using hc
            exact Set.subset_union_right.trans Set.subset_union_left

/-! ### The result -/

/-- A `RunSample` that returns was at its end, with the result that is returned.  -/
theorem Step.returned_pc {cfg : Config μ} {s s' : System τ μ} {t : τ} {job : Job}
    {result : RunResult} {hasNew : Bool} (h : Step cfg s (.returned t job result hasNew) s') :
    (s.threads t).pc = .returned result hasNew := by
  cases h with
  | thread hl =>
      cases hl with
      | processed hpc => exact hpc
  | adjust hpc => exact hpc

/-- What holds of the calls of `RunSample` after a run, and of every step from there. -/
structure CallDiscipline (cfg : Config μ) (tr : List (Event τ)) (s : System τ μ) : Prop where
  /-- A call that is about to return did what its runs asked for: with new coverage its
  sample is in the one file it was given and the one entry it pushed, and without it has
  saved nothing. -/
  reproduced : ∀ t job result hasNew s', Step cfg s (.returned t job result hasNew) s' →
    (callOf cfg t tr).Reproduced cfg → (callOf cfg t tr).Credited cfg hasNew ∧
      (callOf cfg t tr).SavedIf s.shared hasNew ∧ result = .ok
  /-- A call that stopped early did nothing. -/
  stopped : ∀ t job result hasNew s', Step cfg s (.returned t job result hasNew) s' →
    ¬ (callOf cfg t tr).Reproduced cfg → (callOf cfg t tr).Quiet ∧ hasNew = false
  /-- A call is in `SaveSample` only if it is credited, and saves its own sample. -/
  saving : ∀ t var total sample saving,
    (s.threads t).pc = .saving (.runSample var total) sample saving →
      sample = (callOf cfg t tr).sample ∧ (callOf cfg t tr).Credited cfg true ∧
        (callOf cfg t tr).SavedTo s.shared saving
  /-- The label of a merge is what happens to the coverage, which no other step changes
  but the call that restores. -/
  coverage : ∀ event s', Step cfg s event s' →
    (∃ t newStable newVar,
      event = .merged t s.shared.fuzzerCoverage newStable s'.shared.fuzzerCoverage ∧
      pairs s'.shared.fuzzerCoverage =
        pairs s.shared.fuzzerCoverage ∪ pairs newStable ∪ pairs newVar ∧
      Disjoint (pairs newStable) (pairs s.shared.fuzzerCoverage)) ∨
    ((∀ t before newStable after, event ≠ .merged t before newStable after) ∧
      (s.shared.state ≠ .restoreNeeded → s'.shared.fuzzerCoverage = s.shared.fuzzerCoverage))
  /-- A number is a new file with the sample of the thread that saves; no other step
  changes a sample file. -/
  files : ∀ event s', Step cfg s event s' → s.shared.state ≠ .restoreNeeded →
    (∃ t savingFor sample, event = .numbered t s.shared.numSamples ∧
      (s.threads t).pc = .saving savingFor sample .number ∧
      s'.shared = numberSample s.shared sample) ∨
    ((∀ t fileindex, event ≠ .numbered t fileindex) ∧
      s'.shared.numSamples = s.shared.numSamples ∧ s'.shared.sampleFiles = s.shared.sampleFiles)
  /-- A push is a new entry, for the sample and the file of the thread that saves, in the
  corpus and in the queue; no other step makes an entry, but the call that restores. -/
  corpus : ∀ event s', Step cfg s event s' → s.shared.state ≠ .restoreNeeded →
    (∃ t savingFor sample fileindex sampleIndex,
      event = .pushed t (s.threads t).job s.shared.allEntries.length sample ∧
      (s.threads t).pc = .saving savingFor sample (.push fileindex sampleIndex) ∧
      s'.shared.allEntries = s.shared.allEntries ++ [newEntry sample fileindex sampleIndex] ∧
      s.shared.allEntries.length ∈ s'.shared.sampleQueue) ∨
    ((∀ t job e sample, event ≠ .pushed t job e sample) ∧
      s'.shared.allEntries.length = s.shared.allEntries.length)
  /-- What is stored stays stored. -/
  keeps : ∀ event s', Step cfg s event s' → s.shared.Keeps s'.shared
  /-- No offset is credited twice. -/
  disjoint : (tr.filterMap Event.credit).Pairwise fun a b => Disjoint (pairs a) (pairs b)

/-- **Only reproducible new coverage creates samples, and it is credited once**, over every
interleaving of the calls and whatever their runs return.  A call of `RunSample` whose runs
all ended well merges what they have reached.  If something that all of them reached was
new, it saves exactly one sample, the one it was called with or what the minimizer left of
it: one file and one entry.  In every other case it creates nothing.  -/
theorem calls_credited {cfg : Config μ} {restore : Bool} {inputs : List Sample}
    {disk : Option SavedState} {files : ℕ → Option Sample} {tr : List (Event τ)} {s : System τ μ}
    (h : Run (Step cfg) (System.init restore inputs disk files) tr s) : CallDiscipline cfg tr s := by
  have hreturned : ∀ t job result hasNew s', Step cfg s (.returned t job result hasNew) s' →
      ((callOf cfg t tr).Credited cfg hasNew ∧ (callOf cfg t tr).SavedIf s.shared hasNew ∧
        result = .ok) ∨
      (¬ (callOf cfg t tr).Reproduced cfg ∧ (callOf cfg t tr).Quiet ∧ hasNew = false) := by
    intro t job result hasNew s' hstep
    have hc := callOk_of_run h t
    rw [Thread.CallOk, hstep.returned_pc] at hc
    exact hc
  constructor
  · intro t job result hasNew s' hstep hr
    rcases hreturned t job result hasNew s' hstep with hc | ⟨hnot, -⟩
    · exact hc
    · exact absurd hr hnot
  · intro t job result hasNew s' hstep hr
    rcases hreturned t job result hasNew s' hstep with ⟨hc, -⟩ | ⟨-, hq⟩
    · exact absurd hc.reproduced hr
    · exact hq
  · intro t var total sample saving hpc
    have hc := callOk_of_run h t
    rwa [Thread.CallOk, hpc] at hc
  · intro event s' hstep
    rcases hstep.fuzzerCoverage with ⟨hnone, hsame⟩ | hmerged
    · refine Or.inr ⟨?_, hsame⟩
      rintro t before newStable after rfl
      cases hnone
    · exact Or.inl hmerged
  · exact fun event s' hstep hs => hstep.sampleFiles hs
  · intro event s' hstep hs
    rcases hstep.allEntries hs with ⟨t, savingFor, sample, i, j, hevent, hpc, heq⟩ | hsame
    · refine Or.inl ⟨t, savingFor, sample, i, j, hevent, hpc, by rw [heq]; rfl, ?_⟩
      rw [heq, ← Array.mem_toList_iff]
      exact (Heap.push_perm _ _ _).mem_iff.2 List.mem_cons_self
    · exact Or.inr hsame
  · exact fun event s' hstep => hstep.keeps h
  · exact (credits_disjoint h).1

end

section

attribute [local instance] listTinyInst

/-- One retry, and samples are trimmed. -/
def retryConfig : Config SimpleTrimmerContext :=
  { sessionConfig with coverageReproduceRetries := 1, minimizeSamples := true }

/-- The target runs through two offsets. -/
def reachesBoth (offset offset' : UInt64) : Outcome := ⟨.ok, [⟨str "m", {offset, offset'}⟩], 0⟩

/-- A FUZZ job: the mutated sample reaches the offsets 2 and 3 at first and 2 in the
retry, is trimmed to its first byte, and `RunSample` is about to return. -/
theorem run_return : ∃ (tr : List (Event Bool)) (s s' : System Bool SimpleTrimmerContext),
    Run (Step retryConfig) (System.init false [sessionInput] none fun _ => none) tr s ∧
    Step retryConfig s (.returned false (.fuzz 0) .ok true) s' ∧
    (callOf retryConfig false tr).outcomes = [reachesBoth 2 3, reaches 2] ∧
    (callOf retryConfig false tr).sample = Sample.init (str "B") :=
  ⟨_, _, _, Run.cons (Step.getJob (t := false) (chosen false []) rfl rfl)
    (Run.cons (Step.thread (t := false) (.process rfl rfl))
    (Run.cons (Step.thread (t := false) (.firstRun (reaches 1) rfl))
    (Run.cons (Step.thread (t := false) (.retry (reaches 1) rfl))
    (Run.cons (Step.interesting (t := false) rfl rfl)
    (Run.cons (Step.thread (t := false) (.report rfl))
    (Run.cons (Step.number (t := false) rfl)
    (Run.cons (Step.create (t := false) rfl)
    (Run.cons (Step.push (t := false) rfl)
    (Run.cons (Step.thread (t := false) (.finish rfl))
    (Run.cons (Step.thread (t := false) (.processed rfl rfl))
    (Run.cons (Step.done (t := false) rfl)
    (Run.cons (Step.getJob (t := false) (chosen false []) rfl rfl)
    (Run.cons (Step.thread (t := false) (.mutate (Sample.init (str "BC")) rfl rfl (by decide)))
    (Run.cons (Step.thread (t := false) (.firstRun (reachesBoth 2 3) rfl))
    (Run.cons (Step.thread (t := false) (.retry (reaches 2) rfl))
    (Run.cons (Step.interesting (t := false) rfl rfl)
    (Run.cons (Step.thread (t := false) (.minimize (reaches 2) rfl rfl))
    (Run.cons (Step.thread (t := false) (.minimizeDone rfl rfl))
    (Run.cons (Step.thread (t := false) (.report rfl))
    (Run.cons (Step.number (t := false) rfl)
    (Run.cons (Step.create (t := false) rfl)
    (Run.cons (Step.push (t := false) rfl)
    (Run.single (Step.thread (t := false) (.finish rfl))))))))))))))))))))))))),
    Step.adjust (t := false) rfl rfl rfl, rfl, rfl⟩

/-- The call is credited with the offset that both runs reached, and its sample, as it was
trimmed, is in one file and in one entry.  The run is one of a thread that got an input, run
to the return of `RunSample`. -/
theorem calls_credited_return : ∃ (tr : List (Event Bool)) (s : System Bool SimpleTrimmerContext),
    Run (Step retryConfig) (System.init false [sessionInput] none fun _ => none) tr s ∧
    (callOf retryConfig false tr).outcomes = [reachesBoth 2 3, reaches 2] ∧
    (callOf retryConfig false tr).merges.length = 1 ∧
    ∃ e fileindex, (callOf retryConfig false tr).numbered = [fileindex] ∧
      (callOf retryConfig false tr).pushed = [(e, Sample.init (str "B"))] ∧
      s.shared.sampleFiles fileindex = some (Sample.init (str "B")) ∧
      entryOwns s.shared.allEntries e fileindex (Sample.init (str "B")) := by
  obtain ⟨tr, s, s', hrun, hstep, houtcomes, hsample⟩ := run_return
  have hr : (callOf retryConfig false tr).Reproduced retryConfig := by
    refine ⟨?_, reachesBoth 2 3, [reaches 2], houtcomes, rfl, List.cons_ne_nil _ _, Or.inl rfl⟩
    rw [houtcomes]
    intro o ho
    rcases List.mem_pair.1 ho with rfl | rfl <;> rfl
  obtain ⟨hc, hsaved, -⟩ := (calls_credited hrun).reproduced _ _ _ _ s' hstep hr
  obtain ⟨before, newStable, after, hmerges, -⟩ := hc.merged
  obtain ⟨e, fileindex, hnumbered, hpushed, hfile, hentry⟩ := (hsaved.saved rfl).saved
  rw [hsample] at hpushed hfile hentry
  exact ⟨tr, s, hrun, houtcomes, by rw [hmerges]; rfl, e, fileindex, hnumbered, hpushed, hfile.2,
    hentry⟩

end

end Fuzzer
end Jackalope
