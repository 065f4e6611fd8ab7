/-
# The fuzzing threads

`RunFuzzerThread` (`fuzzer.cpp`) as a transition system: any number of threads, each
somewhere in `SynchronizeAndGetJob`, `FuzzJob` or `ProcessSample`, `RunSample`,
`MinimizeSample`, `SaveSample` and `JobDone`.  A step is one mutex-protected section
of one thread (`Step`), or something the thread does on its own (`LocalStep`): it
runs the target once, asks the mutator or the minimizer, or returns from a
function.

Runs of the target, mutated samples, the clock and the server are the
environment's, so any of them may be anything.  Crash and hang bookkeeping, reports
to the server and the coverage that the instrumentation is told to ignore do not
change what is modelled here; the places in the code where they happen are kept.
-/

import Jackalope.Foundation.Run
import Jackalope.Fuzzer.State
import Mathlib.Algebra.BigOperators.Group.Finset.Piecewise
import Mathlib.Data.Fintype.Card

namespace Jackalope
namespace Fuzzer

open Foundation

/-- What comes back from `RunSampleAndGetCoverage`, with `GetReturnValue()`. -/
structure Outcome where
  result : RunResult
  coverage : Coverage
  returnValue : UInt64

/-- Where a thread is in `SaveSample`. -/
inductive Saving
  /-- "Need to rerun the sample as the minimizer could have changed ranges". -/
  | ranges
  /-- About to lock `output_mutex`. -/
  | number
  /-- The file has number `fileindex`; about to create the entry. -/
  | create (fileindex : ℕ)
  /-- The entry is created, with this index; about to lock `queue_mutex`. -/
  | push (fileindex sampleIndex : ℕ)

/-- Who called `SaveSample`: `RunSample`, which goes on with these coverages, or
`ProcessSample`. -/
inductive SavingFor
  | runSample (variableCoverage totalCoverage : Coverage)
  | processSample

/-- Where a thread is, with its local variables. -/
inductive Pc (μ : Type)
  /-- About to call `SynchronizeAndGetJob`. -/
  | synchronize
  /-- In `FuzzJob` at the head of the loop, before `RunSample` in `ProcessSample`, or
  waiting. -/
  | working
  /-- In `RunSample`, about to run the sample. -/
  | running (sample : Sample)
  /-- About to run it again; `i` retries are done. -/
  | retrying (sample : Sample) (i : ℕ) (stableCoverage totalCoverage : Coverage)
  /-- About to call `InterestingSample`. -/
  | judging (sample : Sample) (stableCoverage variableCoverage totalCoverage : Coverage)
  /-- In the loop of `MinimizeSample`. -/
  | minimizing (sample testSample : Sample) (context : μ)
      (stableCoverage variableCoverage totalCoverage : Coverage)
  /-- About to report the stable coverage and to call `SaveSample`. -/
  | reporting (sample : Sample) (variableCoverage totalCoverage : Coverage)
  /-- In `SaveSample`. -/
  | saving (savingFor : SavingFor) (sample : Sample) (saving : Saving)
  /-- About to report the variable coverage and to return. -/
  | finishing (hasNewCoverage : Bool) (totalCoverage : Coverage)
  /-- `RunSample` returned. -/
  | returned (result : RunResult) (hasNewCoverage : Bool)
  /-- About to call `JobDone`. -/
  | jobDone

/-- `ThreadContext` and `FuzzerJob`. -/
structure Thread (μ : Type) where
  pc : Pc μ
  job : Job
  discardSample : Bool
  threadCoverage : Coverage

/-- The threads and what they share. -/
structure System (τ μ : Type) where
  shared : Shared
  threads : τ → Thread μ

/-- What a run of the target is for. -/
inductive Purpose
  /-- The first run in `RunSample`, or a retry. -/
  | reproduce
  | minimize
  | ranges
  deriving DecidableEq

/-- What can be seen of a step. -/
inductive Event (τ : Type)
  /-- `SynchronizeAndGetJob`. -/
  | gotJob (t : τ) (choices : Choices) (job : Job)
  /-- `RunSample` was called; the thread's coverage at that time. -/
  | called (t : τ) (sample : Sample) (threadCoverage : Coverage)
  /-- A sample was delivered to the target and run. -/
  | ran (t : τ) (purpose : Purpose) (sample : Sample) (outcome : Outcome)
  /-- `InterestingSample`: `fuzzer_coverage` before and after, and the coverage that
  is credited to the call. -/
  | merged (t : τ) (before newStableCoverage after : Coverage)
  /-- `SaveSample` gave the sample a file. -/
  | numbered (t : τ) (fileindex : ℕ)
  /-- In this job `SaveSample` put the sample into the corpus, as the entry with this
  name. -/
  | pushed (t : τ) (job : Job) (e : ℕ) (sample : Sample)
  /-- In this job `RunSample` returned. -/
  | returned (t : τ) (job : Job) (result : RunResult) (hasNewCoverage : Bool)
  /-- `JobDone`. -/
  | done (t : τ) (job : Job)
  /-- Anything else that a thread does on its own. -/
  | moved (t : τ)

variable {τ μ : Type}

/-- The thread that takes the step. -/
def Event.thread : Event τ → τ
  | .gotJob t _ _ | .called t _ _ | .ran t _ _ _ | .merged t _ _ _ | .numbered t _
  | .pushed t _ _ _ | .returned t _ _ _ | .done t _ | .moved t => t

/-- The job that an event hands out. -/
def Event.job : Event τ → Option Job
  | .gotJob _ _ job => some job
  | _ => none

/-! ### `RunSample`, between its runs -/

section

variable [TinyInst]

/-- The head of the retry loop in `RunSample`, and what follows the loop. -/
def retryOrJudge (cfg : Config μ) (sample : Sample) (i : ℕ) (stableCoverage totalCoverage : Coverage) :
    Pc μ :=
  if i < cfg.coverageReproduceRetries then .retrying sample i stableCoverage totalCoverage
  else .judging sample stableCoverage (coverageDifference stableCoverage totalCoverage) totalCoverage

/-- `RunSample` after the first run. -/
def afterFirstRun (cfg : Config μ) (threadCoverage : Coverage) (sample : Sample)
    (outcome : Outcome) : Pc μ :=
  if outcome.result ≠ .ok then .returned outcome.result false
  else if cfg.isReturnValueInteresting outcome.returnValue = false then
    .returned outcome.result false
  else if outcome.coverage = [] then .returned outcome.result false
  else if cfg.incrementalCoverage = false ∧
      coverageDifference threadCoverage outcome.coverage = [] then
    .returned outcome.result false
  else retryOrJudge cfg sample 0 outcome.coverage outcome.coverage

/-- `RunSample` after retry `i`. -/
def afterRetry (cfg : Config μ) (sample : Sample) (i : ℕ) (stableCoverage totalCoverage : Coverage)
    (outcome : Outcome) : Pc μ :=
  if outcome.result ≠ .ok then .returned outcome.result false
  else retryOrJudge cfg sample (i + 1) (coverageIntersection stableCoverage outcome.coverage)
    (mergeCoverage totalCoverage outcome.coverage)

/-- `RunSample` after `InterestingSample`; only FUZZ jobs trim. -/
def afterInteresting (cfg : Config μ) (job : Job) (sample : Sample)
    (newStableCoverage newVariableCoverage totalCoverage : Coverage) : Pc μ :=
  if newStableCoverage = [] then .finishing false totalCoverage
  else
    match job with
    | .fuzz _ =>
        if cfg.minimizeSamples then
          .minimizing sample sample (cfg.minimizer.createContext sample) newStableCoverage
            newVariableCoverage totalCoverage
        else .reporting sample newVariableCoverage totalCoverage
    | _ => .reporting sample newVariableCoverage totalCoverage

/-- A round of `MinimizeSample` after the run of `testSample`. -/
def afterTest (cfg : Config μ) (sample testSample : Sample) (context : μ)
    (stableCoverage variableCoverage totalCoverage : Coverage) (outcome : Outcome) : Pc μ :=
  if outcome.result ≠ .ok then .reporting sample variableCoverage totalCoverage
  else if cfg.isReturnValueInteresting outcome.returnValue = false ∨
      coverageContains outcome.coverage stableCoverage = false then
    .minimizing sample sample (cfg.minimizer.reportFail testSample context) stableCoverage
      variableCoverage totalCoverage
  else
    .minimizing testSample testSample (cfg.minimizer.reportSuccess testSample context)
      stableCoverage variableCoverage totalCoverage

end

/-- The beginning of `SaveSample`. -/
def saveSample (cfg : Config μ) (savingFor : SavingFor) (sample : Sample) : Pc μ :=
  .saving savingFor sample (if cfg.trackRanges then .ranges else .number)

/-- Where `SaveSample` returns to. -/
def SavingFor.next : SavingFor → Pc μ
  | .runSample _ totalCoverage => .finishing true totalCoverage
  | .processSample => .jobDone

/-- `ProcessSample` after `RunSample`. -/
def afterProcess (cfg : Config μ) (sample : Sample) (result : RunResult) (hasNewCoverage : Bool) :
    Pc μ :=
  if result = .crash ∨ result = .hang then .jobDone
  else if hasNewCoverage = false ∧ cfg.addAllInputs = true then
    saveSample cfg .processSample sample
  else .jobDone

/-! ### Steps -/

section

variable [TinyInst]

/-- What a thread does on its own. -/
inductive LocalStep (cfg : Config μ) (t : τ) : Thread μ → Event τ → Thread μ → Prop
  /-- A `WAIT` job. -/
  | wait {th} : th.pc = .working → th.job = .wait →
      LocalStep cfg t th (.moved t) { th with pc := .jobDone }
  /-- `ProcessSample` calls `RunSample`. -/
  | process {th origin sample} : th.pc = .working → th.job = .processSample origin sample →
      LocalStep cfg t th (.called t sample th.threadCoverage) { th with pc := .running sample }
  /-- `Mutate` returns false. -/
  | mutateDone {th e} : th.pc = .working → th.job = .fuzz e →
      LocalStep cfg t th (.moved t) { th with pc := .jobDone }
  /-- The mutated sample is larger than `Sample::max_size`. -/
  | mutateTooLarge {th e} (mutated : Sample) : th.pc = .working → th.job = .fuzz e →
      mutated.size > cfg.maxSize → LocalStep cfg t th (.moved t) th
  /-- `FuzzJob` calls `RunSample`. -/
  | mutate {th e} (mutated : Sample) : th.pc = .working → th.job = .fuzz e →
      ¬ mutated.size > cfg.maxSize →
      LocalStep cfg t th (.called t mutated th.threadCoverage) { th with pc := .running mutated }
  | firstRun {th sample} (outcome : Outcome) : th.pc = .running sample →
      LocalStep cfg t th (.ran t .reproduce sample outcome)
        { th with pc := afterFirstRun cfg th.threadCoverage sample outcome }
  | retry {th sample i stable total} (outcome : Outcome) :
      th.pc = .retrying sample i stable total →
      LocalStep cfg t th (.ran t .reproduce sample outcome)
        { th with pc := afterRetry cfg sample i stable total outcome }
  /-- `MinimizeStep` returns 0. -/
  | minimizeDone {th sample testSample context stable var total} :
      th.pc = .minimizing sample testSample context stable var total →
      cfg.minimizer.minimizeStep testSample context = none →
      LocalStep cfg t th (.moved t) { th with pc := .reporting sample var total }
  | minimize {th sample testSample testSample' context context' stable var total}
      (outcome : Outcome) :
      th.pc = .minimizing sample testSample context stable var total →
      cfg.minimizer.minimizeStep testSample context = some (testSample', context') →
      LocalStep cfg t th (.ran t .minimize testSample' outcome)
        { th with pc := afterTest cfg sample testSample' context' stable var total outcome }
  /-- The stable coverage and the sample are reported; `RunSample` calls `SaveSample`. -/
  | report {th sample var total} : th.pc = .reporting sample var total →
      LocalStep cfg t th (.moved t)
        { th with pc := saveSample cfg (.runSample var total) sample }
  | saveRanges {th savingFor sample} (outcome : Outcome) :
      th.pc = .saving savingFor sample .ranges →
      LocalStep cfg t th (.ran t .ranges sample outcome)
        { th with pc := .saving savingFor sample .number }
  /-- The variable coverage is reported, and the coverage is ignored from now on. -/
  | finish {th hasNew total} : th.pc = .finishing hasNew total →
      LocalStep cfg t th (.moved t)
        { th with
          pc := .returned .ok hasNew
          threadCoverage := if cfg.incrementalCoverage then th.threadCoverage
            else mergeCoverage th.threadCoverage total }
  | processed {th origin sample result hasNew} : th.pc = .returned result hasNew →
      th.job = .processSample origin sample →
      LocalStep cfg t th (.returned t th.job result hasNew)
        { th with pc := afterProcess cfg sample result hasNew }

variable [DecidableEq τ]

/-- Replace one thread. -/
def System.setThread (s : System τ μ) (t : τ) (th : Thread μ) : System τ μ :=
  { s with threads := Function.update s.threads t th }

/-- One step of one thread. -/
inductive Step (cfg : Config μ) : System τ μ → Event τ → System τ μ → Prop
  | thread {s : System τ μ} {t event th} : LocalStep cfg t (s.threads t) event th →
      Step cfg s event (s.setThread t th)
  | getJob {s : System τ μ} {t} (choices : Choices) {shared job} :
      (s.threads t).pc = .synchronize →
      synchronizeAndGetJob cfg choices s.shared = some (shared, job) →
      Step cfg s (.gotJob t choices job)
        { s.setThread t { s.threads t with
            pc := .working, job := job, discardSample := false } with shared := shared }
  | interesting {s : System τ μ} {t sample stable var total after newStable newVar} :
      (s.threads t).pc = .judging sample stable var total →
      interestingSample s.shared.fuzzerCoverage stable var = (after, newStable, newVar) →
      Step cfg s (.merged t s.shared.fuzzerCoverage newStable after)
        { s.setThread t { s.threads t with
            pc := afterInteresting cfg (s.threads t).job sample newStable newVar total } with
          shared := { s.shared with fuzzerCoverage := after } }
  | number {s : System τ μ} {t savingFor sample} :
      (s.threads t).pc = .saving savingFor sample .number →
      Step cfg s (.numbered t s.shared.numSamples)
        { s.setThread t { s.threads t with
            pc := .saving savingFor sample (.create s.shared.numSamples) } with
          shared := numberSample s.shared sample }
  /-- The entry is created outside any section; `num_samples` is read again. -/
  | create {s : System τ μ} {t savingFor sample fileindex} :
      (s.threads t).pc = .saving savingFor sample (.create fileindex) →
      Step cfg s (.moved t) (s.setThread t { s.threads t with
        pc := .saving savingFor sample (.push fileindex (s.shared.numSamples - 1)) })
  | push {s : System τ μ} {t savingFor sample fileindex sampleIndex} :
      (s.threads t).pc = .saving savingFor sample (.push fileindex sampleIndex) →
      Step cfg s (.pushed t (s.threads t).job s.shared.allEntries.length sample)
        { s.setThread t { s.threads t with pc := savingFor.next } with
          shared := pushEntry s.shared (newEntry sample fileindex sampleIndex) }
  /-- `FuzzJob` after `RunSample`: it changes its entry, holding no mutex. -/
  | adjust {s : System τ μ} {t e entry result hasNew} :
      (s.threads t).pc = .returned result hasNew → (s.threads t).job = .fuzz e →
      s.shared.allEntries[e]? = some entry →
      Step cfg s (.returned t (s.threads t).job result hasNew)
        { s.setThread t { s.threads t with
            pc := if tooManyFailures cfg (recordRun entry result hasNew) then .jobDone else .working
            discardSample := tooManyFailures cfg (recordRun entry result hasNew) } with
          shared := { s.shared with
            allEntries := s.shared.allEntries.set e (recordRun entry result hasNew) } }
  | done {s : System τ μ} {t} : (s.threads t).pc = .jobDone →
      Step cfg s (.done t (s.threads t).job)
        { s.setThread t { s.threads t with pc := .synchronize } with
          shared := jobDone s.shared (s.threads t).job (s.threads t).discardSample }

end

/-! ### What a thread does on its own -/

/-- Whether the thread has a job. -/
def Pc.inJob : Pc μ → Bool
  | .synchronize => false
  | _ => true

/-- Whether `RunSample` was credited with new stable coverage and has not put its
sample into the corpus yet. -/
def Pc.inWindow : Pc μ → Bool
  | .minimizing .. | .reporting .. | .saving (.runSample _ _) _ _ => true
  | _ => false

/-- Whether `RunSample` was credited and has put its sample into the corpus. -/
def Pc.hasSaved : Pc μ → Bool
  | .finishing true _ | .returned _ true => true
  | _ => false

/-- **Where `RunSample` goes on behind `InterestingSample`**: to its end if nothing new was
found; else to the minimizer or, without one, to the report.  -/
theorem afterInteresting_eq (cfg : Config μ) (job : Job) (sample : Sample)
    (newStable newVar total : Coverage) :
    (newStable = [] ∧ afterInteresting cfg job sample newStable newVar total =
      .finishing false total) ∨
    (newStable ≠ [] ∧ afterInteresting cfg job sample newStable newVar total =
      .minimizing sample sample (cfg.minimizer.createContext sample) newStable newVar total) ∨
    (newStable ≠ [] ∧ afterInteresting cfg job sample newStable newVar total =
      .reporting sample newVar total) := by
  unfold afterInteresting
  split
  · exact Or.inl ⟨by assumption, rfl⟩
  · split
    · split
      · exact Or.inr (Or.inl ⟨by assumption, rfl⟩)
      · exact Or.inr (Or.inr ⟨by assumption, rfl⟩)
    · exact Or.inr (Or.inr ⟨by assumption, rfl⟩)

section

variable [TinyInst]

/-- Where `RunSample` goes on behind a run: to another retry, or to `InterestingSample` with
the coverage that some runs had and others had not.  -/
theorem retryOrJudge_eq (cfg : Config μ) (sample : Sample) (i : ℕ) (stable total : Coverage) :
    (i < cfg.coverageReproduceRetries ∧
      retryOrJudge cfg sample i stable total = .retrying sample i stable total) ∨
    (¬ i < cfg.coverageReproduceRetries ∧ retryOrJudge cfg sample i stable total =
      .judging sample stable (coverageDifference stable total) total) := by
  unfold retryOrJudge
  split
  · exact Or.inl ⟨by assumption, rfl⟩
  · exact Or.inr ⟨by assumption, rfl⟩

/-- After the first run `RunSample` has returned, or goes on. -/
theorem afterFirstRun_eq (cfg : Config μ) (threadCoverage : Coverage) (sample : Sample)
    (outcome : Outcome) :
    afterFirstRun cfg threadCoverage sample outcome = .returned outcome.result false ∨
      afterFirstRun cfg threadCoverage sample outcome =
        retryOrJudge cfg sample 0 outcome.coverage outcome.coverage := by
  unfold afterFirstRun
  split_ifs <;> simp

/-- So it has, or does, after a retry: a run that did not end well ends the call, and any
other one leads back to the head of the loop.  -/
theorem afterRetry_eq (cfg : Config μ) (sample : Sample) (i : ℕ) (stable total : Coverage)
    (outcome : Outcome) :
    afterRetry cfg sample i stable total outcome = .returned outcome.result false ∨
      afterRetry cfg sample i stable total outcome =
        retryOrJudge cfg sample (i + 1) (coverageIntersection stable outcome.coverage)
          (mergeCoverage total outcome.coverage) := by
  unfold afterRetry
  split_ifs <;> simp

/-- Where `MinimizeSample` goes on behind a test: to the report if the test did not end
well, else to the next step, from the sample before or from the test.  -/
theorem afterTest_eq (cfg : Config μ) (sample testSample : Sample) (context : μ)
    (stable var total : Coverage) (outcome : Outcome) :
    afterTest cfg sample testSample context stable var total outcome = .reporting sample var total ∨
    ∃ kept context', (kept = sample ∨ kept = testSample) ∧
      afterTest cfg sample testSample context stable var total outcome =
        .minimizing kept kept context' stable var total := by
  unfold afterTest
  split
  · exact Or.inl rfl
  · split
    · exact Or.inr ⟨sample, _, Or.inl rfl, rfl⟩
    · exact Or.inr ⟨testSample, _, Or.inr rfl, rfl⟩

end

/-- Where `ProcessSample` goes on behind `RunSample`: it is done, or saves the sample though
it has found nothing.  -/
theorem afterProcess_eq (cfg : Config μ) (sample : Sample) (result : RunResult) (hasNew : Bool) :
    afterProcess cfg sample result hasNew = .jobDone ∨
      afterProcess cfg sample result hasNew = saveSample cfg .processSample sample := by
  unfold afterProcess
  split_ifs <;> simp

/-- **A step of a thread on its own** keeps its job, neither enters nor leaves the
window, and returns from a credited call only behind it. -/
structure LocalFacts (t : τ) (th : Thread μ) (event : Event τ) (th' : Thread μ) : Prop where
  inJob : th.pc.inJob = true
  inJob' : th'.pc.inJob = true
  job : th'.job = th.job
  thread : event.thread = t
  inWindow : th'.pc.inWindow = th.pc.inWindow
  hasSaved : th'.pc.hasSaved = true → th.pc.hasSaved = true
  returned : ∀ job result, event = .returned t job result true →
    th.pc.hasSaved = true ∧ job = th.job
  notShared : (∀ choices job, event ≠ .gotJob t choices job) ∧
    (∀ before new after, event ≠ .merged t before new after) ∧
    (∀ job e sample, event ≠ .pushed t job e sample) ∧ ∀ job, event ≠ .done t job

/-- The events of what a thread does on its own until `RunSample` returns. -/
def Event.IsOwn (t : τ) : Event τ → Prop
  | .called t' _ _ | .ran t' _ _ _ | .moved t' => t' = t
  | _ => False

/-- For these events only the program counters matter: the job is the same, the thread stays
inside of it and on the same side of the window.  -/
theorem LocalFacts.of_isOwn {t : τ} {th th' : Thread μ} {event : Event τ} (hevent : event.IsOwn t)
    (hjob : th'.job = th.job) (hpc : th.pc.inJob = true) (hpc' : th'.pc.inJob = true)
    (hwindow : th'.pc.inWindow = th.pc.inWindow)
    (hsaved : th'.pc.hasSaved = true → th.pc.hasSaved = true) : LocalFacts t th event th' := by
  cases event with
  | called | ran | moved =>
      exact ⟨hpc, hpc', hjob, hevent, hwindow, hsaved, nofun, nofun, nofun, nofun, nofun⟩
  | _ => exact hevent.elim

section

variable [TinyInst]

/-- The thread is still in its job, before anything was credited or saved.  -/
theorem retryOrJudge_pc (cfg : Config μ) (sample : Sample) (i : ℕ) (stable total : Coverage) :
    (retryOrJudge cfg sample i stable total).inJob = true ∧
      (retryOrJudge cfg sample i stable total).inWindow = false ∧
      (retryOrJudge cfg sample i stable total).hasSaved = false := by
  rcases retryOrJudge_eq cfg sample i stable total with ⟨-, h⟩ | ⟨-, h⟩ <;>
    rw [h] <;> exact ⟨rfl, rfl, rfl⟩

/-- **What a thread does on its own**, in short: the event is its own and hands out nothing,
and the thread stays in its job and in its call.  What is proved of all threads uses this,
and does not look at the steps one by one.  -/
theorem LocalStep.facts {cfg : Config μ} {t : τ} {th th' : Thread μ} {event : Event τ}
    (h : LocalStep cfg t th event th') : LocalFacts t th event th' := by
  obtain ⟨pc, job, discardSample, threadCoverage⟩ := th
  cases h with
  | wait hpc | process hpc | mutateDone hpc | mutateTooLarge _ hpc | mutate _ hpc | minimizeDone hpc
  | report hpc =>
      obtain rfl : pc = _ := hpc
      exact .of_isOwn rfl rfl rfl rfl rfl nofun
  | @firstRun sample outcome hpc =>
      obtain rfl : pc = _ := hpc
      rcases afterFirstRun_eq cfg threadCoverage sample outcome with h | h
      · simp only [h]
        exact .of_isOwn rfl rfl rfl rfl rfl nofun
      · obtain ⟨h₁, h₂, h₃⟩ := retryOrJudge_pc cfg sample 0 outcome.coverage outcome.coverage
        simp only [h]
        exact .of_isOwn rfl rfl rfl h₁ h₂ (by simp [h₃])
  | @retry sample i stable total outcome hpc =>
      obtain rfl : pc = _ := hpc
      rcases afterRetry_eq cfg sample i stable total outcome with h | h
      · simp only [h]
        exact .of_isOwn rfl rfl rfl rfl rfl nofun
      · obtain ⟨h₁, h₂, h₃⟩ := retryOrJudge_pc cfg sample (i + 1)
          (coverageIntersection stable outcome.coverage) (mergeCoverage total outcome.coverage)
        simp only [h]
        exact .of_isOwn rfl rfl rfl h₁ h₂ (by simp [h₃])
  | @minimize sample _ testSample _ context stable var total outcome hpc =>
      obtain rfl : pc = _ := hpc
      rcases afterTest_eq cfg sample testSample context stable var total outcome with
        h | ⟨kept, context', -, h⟩ <;>
        simp only [h] <;> exact .of_isOwn rfl rfl rfl rfl rfl nofun
  | @saveRanges savingFor sample outcome hpc =>
      obtain rfl : pc = _ := hpc
      cases savingFor <;> exact .of_isOwn rfl rfl rfl rfl rfl nofun
  | @finish hasNew total hpc =>
      obtain rfl : pc = _ := hpc
      cases hasNew
      · exact .of_isOwn rfl rfl rfl rfl rfl nofun
      · exact .of_isOwn rfl rfl rfl rfl rfl fun _ => rfl
  | @processed origin sample result hasNew hpc hjob =>
      obtain rfl : pc = _ := hpc
      have hret : ∀ j r, Event.returned t job result hasNew = .returned t j r true →
          (Pc.returned result hasNew : Pc μ).hasSaved = true ∧ j = job := by
        rintro j r ⟨⟩
        exact ⟨rfl, rfl⟩
      rcases afterProcess_eq cfg sample result hasNew with h | h
      · simp only [h]
        exact ⟨rfl, rfl, rfl, rfl, rfl, nofun, hret, nofun, nofun, nofun, nofun⟩
      · simp only [h]
        exact ⟨rfl, rfl, rfl, rfl, rfl, nofun, hret, nofun, nofun, nofun, nofun⟩

end

/-! ### Frames -/

section

variable [DecidableEq τ]

/-- One thread is replaced, and the others stay as they are.  -/
theorem System.setThread_threads (s : System τ μ) (t u : τ) (th : Thread μ) :
    (s.setThread t th).threads u = if u = t then th else s.threads u :=
  Function.update_apply _ _ _ _

/-- The thread that is replaced.  -/
@[simp] theorem System.setThread_self (s : System τ μ) (t : τ) (th : Thread μ) :
    (s.setThread t th).threads t = th :=
  Function.update_self _ _ _

variable [TinyInst]

/-- A step changes the thread that takes it, and no other. -/
theorem Step.thread_eq {cfg : Config μ} {s s' : System τ μ} {event : Event τ}
    (h : Step cfg s event s') {u : τ} (hu : event.thread ≠ u) : s'.threads u = s.threads u := by
  cases h with
  | thread hl =>
      rw [System.setThread_threads, if_neg fun h => hu (by rw [hl.facts.thread, h])]
  | _ => exact (s.setThread_threads _ _ _).trans (if_neg fun h => hu h.symm)

/-- A step in the middle of a job: the thread keeps it, and of what is shared only
the coverage, the corpus and the sample files may change. -/
structure Works (s : System τ μ) (event : Event τ) (s' : System τ μ) : Prop where
  noJob : event.job = none
  notDone : ∀ t job, event ≠ .done t job
  inJob : (s.threads event.thread).pc.inJob = true
  inJob' : (s'.threads event.thread).pc.inJob = true
  job : (s'.threads event.thread).job = (s.threads event.thread).job
  state : s'.shared.state = s.shared.state
  inputFiles : s'.shared.inputFiles = s.shared.inputFiles
  serverSamples : s'.shared.serverSamples = s.shared.serverSamples
  received : s'.shared.received = s.shared.received
  samplesPending : s'.shared.samplesPending = s.shared.samplesPending
  numSamplesDiscarded : s'.shared.numSamplesDiscarded = s.shared.numSamplesDiscarded
  stateDat : s'.shared.stateDat = s.shared.stateDat

omit [TinyInst] in
/-- Behind `SaveSample` the thread is still in its job, and no longer in the window.  -/
theorem SavingFor.next_pc (savingFor : SavingFor) :
    (savingFor.next : Pc μ).inJob = true ∧ (savingFor.next : Pc μ).inWindow = false := by
  cases savingFor <;> exact ⟨rfl, rfl⟩

/-- **The three kinds of steps**: a thread gets a job, works on it, or is done.  Every
invariant of the fuzzer is proved by these three, and the first and the last are each one
equation for the next state.  -/
theorem Step.kinds {cfg : Config μ} {s s' : System τ μ} {event : Event τ}
    (h : Step cfg s event s') :
    (∃ t choices job shared, event = .gotJob t choices job ∧ (s.threads t).pc = .synchronize ∧
      synchronizeAndGetJob cfg choices s.shared = some (shared, job) ∧
      s' = { s.setThread t { s.threads t with
        pc := .working, job := job, discardSample := false } with shared := shared }) ∨
    (∃ t, event = .done t (s.threads t).job ∧ (s.threads t).pc = .jobDone ∧
      s' = { s.setThread t { s.threads t with pc := .synchronize } with
        shared := jobDone s.shared (s.threads t).job (s.threads t).discardSample }) ∨
    Works s event s' := by
  cases h with
  | getJob choices hpc hjob => exact Or.inl ⟨_, _, _, _, rfl, hpc, hjob, rfl⟩
  | done hpc => exact Or.inr (Or.inl ⟨_, rfl, hpc, rfl⟩)
  | @thread t event th hl =>
      have hf := hl.facts
      have hself : (s.setThread t th).threads event.thread = th := by
        rw [System.setThread_threads, if_pos hf.thread]
      refine Or.inr (Or.inr ⟨?_, ?_, ?_, ?_, ?_, rfl, rfl, rfl, rfl, rfl, rfl, rfl⟩)
      · cases hl <;> rfl
      · cases hl <;> exact nofun
      · rw [hf.thread]
        exact hf.inJob
      · rw [hself]
        exact hf.inJob'
      · rw [hself, hf.thread]
        exact hf.job
  | @interesting t sample stable var total after newStable newVar hpc _ =>
      refine Or.inr (Or.inr ⟨rfl, nofun, ?_, ?_, ?_, rfl, rfl, rfl, rfl, rfl, rfl, rfl⟩)
      · show (s.threads t).pc.inJob = true
        rw [hpc]
        rfl
      · simp only [Event.thread, System.setThread, Function.update_self]
        rcases afterInteresting_eq cfg (s.threads t).job sample newStable newVar total with
          ⟨-, h⟩ | ⟨-, h⟩ | ⟨-, h⟩ <;> rw [h] <;> rfl
      · simp [Event.thread, System.setThread]
  | number hpc | create hpc =>
      refine Or.inr (Or.inr ⟨rfl, nofun, ?_, ?_, ?_, rfl, rfl, rfl, rfl, rfl, rfl, rfl⟩)
      · simp [Event.thread, hpc, Pc.inJob]
      · simp [Event.thread, System.setThread, Pc.inJob]
      · simp [Event.thread, System.setThread]
  | push hpc =>
      refine Or.inr (Or.inr ⟨rfl, nofun, ?_, ?_, ?_, rfl, rfl, rfl, rfl, rfl, rfl, rfl⟩)
      · simp [Event.thread, hpc, Pc.inJob]
      · simp [Event.thread, System.setThread, (SavingFor.next_pc _).1]
      · simp [Event.thread, System.setThread]
  | adjust hpc hjob =>
      refine Or.inr (Or.inr ⟨rfl, nofun, ?_, ?_, ?_, rfl, rfl, rfl, rfl, rfl, rfl, rfl⟩)
      · simp [Event.thread, hpc, Pc.inJob]
      · simp only [Event.thread, System.setThread, Function.update_self]
        split <;> rfl
      · simp [Event.thread, System.setThread]

end

/-! ### Counting threads -/

section

variable [Fintype τ]

/-- How many threads satisfy `p`. -/
def countThreads (p : Thread μ → Bool) (s : System τ μ) : ℕ :=
  (Finset.univ.filter fun t => p (s.threads t) = true).card

/-- A count of zero. -/
theorem countThreads_eq_zero {p : Thread μ → Bool} {s : System τ μ} :
    countThreads p s = 0 ↔ ∀ t, p (s.threads t) = false := by
  rw [countThreads, Finset.card_eq_zero, Finset.filter_eq_empty_iff]
  simp

/-- A thread that is counted. -/
theorem countThreads_pos {p : Thread μ → Bool} {s : System τ μ} {t : τ}
    (h : p (s.threads t) = true) : 0 < countThreads p s :=
  Finset.card_pos.2 ⟨t, Finset.mem_filter.2 ⟨Finset.mem_univ t, h⟩⟩

variable [DecidableEq τ]

/-- Replacing one thread changes the count by what it changes about that thread.  Both sides
are sums, since the count may go up or down.  -/
theorem countThreads_setThread (p : Thread μ → Bool) (s : System τ μ) (t : τ) (th : Thread μ) :
    countThreads p (s.setThread t th) + (p (s.threads t)).toNat =
      countThreads p s + (p th).toNat := by
  have hsum : ∀ s : System τ μ, countThreads p s = ∑ u, (p (s.threads u)).toNat := by
    intro s
    rw [countThreads, Finset.card_filter]
    refine Finset.sum_congr rfl fun u _ => ?_
    cases p (s.threads u) <;> rfl
  rw [hsum, hsum, ← Finset.add_sum_erase _ _ (Finset.mem_univ t),
    ← Finset.add_sum_erase _ (fun u => (p (s.threads u)).toNat) (Finset.mem_univ t)]
  have hrest : ∑ u ∈ Finset.univ.erase t, (p ((s.setThread t th).threads u)).toNat =
      ∑ u ∈ Finset.univ.erase t, (p (s.threads u)).toNat := by
    refine Finset.sum_congr rfl fun u hu => ?_
    rw [System.setThread_threads, if_neg (Finset.ne_of_mem_erase hu)]
  rw [hrest, System.setThread_threads, if_pos rfl]
  omega

/-- Work changes no count of threads by their jobs: a thread that works has the same job
after the step and is still at it.  -/
theorem Step.countThreads_works [TinyInst] {cfg : Config μ} {s s' : System τ μ} {event : Event τ}
    (h : Step cfg s event s') (hw : Works s event s') (p : Bool → Job → Bool) :
    countThreads (fun th => p th.pc.inJob th.job) s' =
      countThreads (fun th => p th.pc.inJob th.job) s := by
  refine congrArg Finset.card (Finset.filter_congr fun t _ => ?_)
  by_cases ht : event.thread = t
  · simp only [← ht, hw.inJob, hw.inJob', hw.job]
  · rw [h.thread_eq ht]

end

/-- A session begins: the threads are created, and the corpus is empty.  With
`restore` the input directory is not read. -/
def System.init (restore : Bool) (inputFiles : List Sample) (stateDat : Option SavedState)
    (sampleFiles : ℕ → Option Sample) : System τ μ where
  shared := {
    state := if restore then .restoreNeeded else .inputSampleProcessing
    inputFiles := if restore then [] else numberFrom 0 inputFiles
    serverSamples := []
    samplesPending := 0
    numSamples := 0
    numSamplesDiscarded := 0
    fuzzerCoverage := []
    allEntries := []
    sampleQueue := #[]
    lastTimestamp := 0
    received := []
    stateDat := stateDat
    sampleFiles := sampleFiles }
  threads _ := ⟨.synchronize, .wait, false, []⟩

end Fuzzer
end Jackalope
