/-
# The state that the fuzzing threads share

The part of `Fuzzer` (`fuzzer.h`, `fuzzer.cpp`) that the mutexes protect: the
phase, the samples still to be processed, the counters, the coverage, the corpus
with its queue, and what is on disk.  Each function here is what the source does
in one mutex-protected section.

Entries are named by their position in `all_entries`; such a name stands for the
`SampleQueueEntry *`.  The queue holds names, and it compares what they point at.
What the environment decides (the clock, the answer of the server, the sample a
generator makes) comes in through `Choices`.
-/

import Jackalope.Foundation.Heap
import Jackalope.Fuzzer.Minimizer
import Mathlib.Algebra.Ring.Int.Defs
import Mathlib.Data.Prod.Lex
import Mathlib.Data.Int.Order.Basic

namespace Jackalope
namespace Fuzzer

open Foundation

/-- `RunResult`. -/
inductive RunResult
  | ok
  | crash
  | hang
  | otherError
  deriving DecidableEq

/-- `FuzzerState`. -/
inductive FuzzerState
  | restoreNeeded
  | inputSampleProcessing
  | serverSampleProcessing
  | generatingSamples
  | fuzzing
  deriving DecidableEq

/-- The options, and the functions a fuzzer may override.  The two limits are the
comparisons with `acceptable_hang_ratio` and `acceptable_crash_ratio`, of a count
and the number of runs. -/
structure Config (μ : Type) where
  incrementalCoverage : Bool
  coverageReproduceRetries : ℕ
  minimizeSamples : Bool
  trackRanges : Bool
  addAllInputs : Bool
  dryRun : Bool
  server : Bool
  skipInitialServerSync : Bool
  canGenerateSample : Bool
  maxSize : ℕ
  overHangRatio : ℕ → ℕ → Bool
  overCrashRatio : ℕ → ℕ → Bool
  isReturnValueInteresting : UInt64 → Bool
  minimizer : Minimizer μ

/-- `SampleQueueEntry`, without what only mutators read.  `sampleFilename` is the
number in the file name. -/
structure SampleQueueEntry where
  sample : Sample
  sampleFilename : ℕ
  priority : ℤ
  sampleIndex : ℕ
  numRuns : ℕ
  numCrashes : ℕ
  numHangs : ℕ
  numNewcoverage : ℕ
  discarded : ℕ
  deriving DecidableEq

/-- `CmpEntryPtrs`: whether `lhs` comes after `rhs` in the queue. -/
def cmpEntryPtrs (lhs rhs : SampleQueueEntry) : Bool :=
  if lhs.priority = rhs.priority then decide (lhs.sampleIndex < rhs.sampleIndex)
  else decide (lhs.priority < rhs.priority)

/-- What `SaveState` writes to `state.dat`, as far as it is modelled here. -/
structure SavedState where
  numSamples : ℕ
  numSamplesDiscarded : ℕ
  fuzzerCoverage : Coverage
  entries : List SampleQueueEntry
  lastTimestamp : ℕ

/-- Where a sample to be processed comes from: the `i`-th file of the input
directory, the `i`-th sample created by `GetUpdates` in this session, or the
generator. -/
inductive Origin
  | input (i : ℕ)
  | server (i : ℕ)
  | generated
  deriving DecidableEq

/-- `FuzzerJob`. -/
inductive Job
  | processSample (origin : Origin) (sample : Sample)
  | fuzz (entry : ℕ)
  | wait
  deriving DecidableEq

/-- The shared fields of `Fuzzer`, those of its `CoverageClient`, and the disk. -/
structure Shared where
  state : FuzzerState
  inputFiles : List (ℕ × Sample)
  serverSamples : List (ℕ × Sample)
  samplesPending : ℕ
  numSamples : ℕ
  numSamplesDiscarded : ℕ
  fuzzerCoverage : Coverage
  allEntries : List SampleQueueEntry
  sampleQueue : Array ℕ
  lastTimestamp : ℕ
  /-- The samples that `GetUpdates` has created in this session. -/
  received : List Sample
  stateDat : Option SavedState
  sampleFiles : ℕ → Option Sample

/-- What the environment decides in one call of `SynchronizeAndGetJob`: whether it
is time to save and to ask the server, what `GetUpdates` delivers before it
returns and the timestamp if it succeeds, and what `GenerateSample` makes. -/
structure Choices where
  saveDue : Bool
  updateDue : Bool
  newSamples : List Sample
  newTimestamp : Option ℕ
  generated : Sample

/-! ### The queue -/

/-- What the queue compares: `priority`, then `sample_index`. -/
def SampleQueueEntry.key (e : SampleQueueEntry) : ℤ ×ₗ ℕ := toLex (e.priority, e.sampleIndex)

/-- The key of the entry with this name. -/
def keyOf (entries : List SampleQueueEntry) (e : ℕ) : ℤ ×ₗ ℕ :=
  match entries[e]? with
  | some entry => entry.key
  | none => toLex (0, 0)

/-- `CmpEntryPtrs` is the order of the keys: first the priorities are compared, and the
indices where these are equal.  -/
theorem cmpEntryPtrs_iff {lhs rhs : SampleQueueEntry} :
    cmpEntryPtrs lhs rhs = true ↔ lhs.key < rhs.key := by
  unfold cmpEntryPtrs SampleQueueEntry.key
  rw [Prod.Lex.toLex_lt_toLex]
  split
  · rename_i h
    simp [h]
  · rename_i h
    simp [h]

/-- `sample_queue.push(entry)`. -/
def pushQueue (f : Shared) (e : ℕ) : Shared :=
  { f with sampleQueue := Heap.push (keyOf f.allEntries) f.sampleQueue e }

/-! ### Saving and restoring -/

/-- `Fuzzer::SaveState`. -/
def saveState (f : Shared) : Shared :=
  if f.state = .inputSampleProcessing then f
  else { f with stateDat := some {
    numSamples := f.numSamples
    numSamplesDiscarded := f.numSamplesDiscarded
    fuzzerCoverage := f.fuzzerCoverage
    entries := f.allEntries
    lastTimestamp := f.lastTimestamp } }

/-- One round of the loop of `RestoreState`: the entry as it was saved, its sample
loaded from its file, queued unless it is discarded. -/
def restoreEntry (f : Shared) (entry : SampleQueueEntry) : Shared :=
  let sample := (f.sampleFiles entry.sampleFilename).getD Sample.empty
  let f' := { f with allEntries := f.allEntries ++ [{ entry with sample := sample }] }
  if entry.discarded = 0 then pushQueue f' f.allEntries.length else f'

/-- `Fuzzer::RestoreState`; no result if there is no state to restore. -/
def restoreState (f : Shared) : Option Shared :=
  f.stateDat.map fun saved =>
    let f := { f with
      numSamples := saved.numSamples
      numSamplesDiscarded := saved.numSamplesDiscarded
      fuzzerCoverage := saved.fuzzerCoverage }
    let f := saved.entries.foldl restoreEntry f
    { f with lastTimestamp := saved.lastTimestamp }

/-! ### `SynchronizeAndGetJob` -/

/-- "First thread that enters this function restores state". -/
def restoreIfNeeded (f : Shared) : Option Shared :=
  if f.state = .restoreNeeded then
    (restoreState f).map fun f => { f with state := .inputSampleProcessing }
  else some f

/-- "Only save state while fuzzing". -/
def saveIfDue (choices : Choices) (f : Shared) : Shared :=
  if f.state = .fuzzing ∧ choices.saveDue = true then saveState f else f

/-- New samples, each with its number; the first gets `n`. -/
def numberFrom (n : ℕ) (samples : List Sample) : List (ℕ × Sample) :=
  (samples.zipIdx n).map Prod.swap

/-- `server->GetUpdates(server_samples, total_execs)`, which may fail partway: the
samples it created are in the list even then. -/
def getUpdates (choices : Choices) (f : Shared) : Shared :=
  { f with
    serverSamples := f.serverSamples ++ numberFrom f.received.length choices.newSamples
    received := f.received ++ choices.newSamples
    lastTimestamp := choices.newTimestamp.getD f.lastTimestamp }

variable {μ : Type}

/-- The periodic synchronization with the server. -/
def syncIfDue (cfg : Config μ) (choices : Choices) (f : Shared) : Shared :=
  if f.state = .fuzzing ∧ cfg.server = true ∧ choices.updateDue = true then
    { getUpdates choices f with state := .serverSampleProcessing }
  else f

/-- The end of input processing, with the initial synchronization. -/
def leaveInputProcessing (cfg : Config μ) (choices : Choices) (f : Shared) : Shared :=
  if f.state = .inputSampleProcessing ∧ f.inputFiles = [] ∧ f.samplesPending = 0 then
    if cfg.server then
      let f := if cfg.skipInitialServerSync then f else getUpdates choices f
      { f with state := .serverSampleProcessing }
    else { f with state := .fuzzing }
  else f

/-- The end of server processing. -/
def leaveServerProcessing (f : Shared) : Shared :=
  if f.state = .serverSampleProcessing ∧ f.serverSamples = [] ∧ f.samplesPending = 0 then
    { f with state := .fuzzing }
  else f

/-- The start of generation; no result without "interesting input files". -/
def startGenerating (cfg : Config μ) (f : Shared) : Option Shared :=
  if f.state = .fuzzing ∧ f.numSamples = 0 then
    if cfg.canGenerateSample then some { f with state := .generatingSamples } else none
  else some f

/-- `MIN_SAMPLES_TO_GENERATE`. -/
def minSamplesToGenerate : ℕ := 10

/-- The end of generation. -/
def stopGenerating (f : Shared) : Shared :=
  if f.state = .generatingSamples ∧ minSamplesToGenerate ≤ f.sampleQueue.size ∧
      f.samplesPending = 0 then
    { f with state := .fuzzing }
  else f

/-- "Create a job according to the state". -/
def createJob (cfg : Config μ) (choices : Choices) (f : Shared) : Shared × Job :=
  match f.state with
  | .fuzzing =>
      if cfg.dryRun then (f, .wait)
      else
        match f.sampleQueue[0]? with
        | none => (f, .wait)
        | some e =>
            ({ f with sampleQueue := Heap.pop (keyOf f.allEntries) f.sampleQueue }, .fuzz e)
  | .inputSampleProcessing =>
      match f.inputFiles with
      | [] => (f, .wait)
      | (i, file) :: inputFiles =>
          let sample := if file.size > cfg.maxSize then file.trim cfg.maxSize else file
          ({ f with inputFiles := inputFiles, samplesPending := f.samplesPending + 1 },
            .processSample (.input i) sample)
  | .serverSampleProcessing =>
      match f.serverSamples with
      | [] => (f, .wait)
      | (i, sample) :: serverSamples =>
          ({ f with serverSamples := serverSamples, samplesPending := f.samplesPending + 1 },
            .processSample (.server i) sample)
  | .generatingSamples =>
      if minSamplesToGenerate ≤ f.sampleQueue.size then (f, .wait)
      else
        ({ f with samplesPending := f.samplesPending + 1 },
          .processSample .generated choices.generated)
  | .restoreNeeded => (f, .wait)

/-- The transitions of one call, after the state was restored and before the job is
created. -/
def changeState (cfg : Config μ) (choices : Choices) (f : Shared) : Option Shared :=
  let f := saveIfDue choices f
  let f := syncIfDue cfg choices f
  let f := leaveInputProcessing cfg choices f
  let f := leaveServerProcessing f
  (startGenerating cfg f).map stopGenerating

/-- `Fuzzer::SynchronizeAndGetJob`, under `queue_mutex`. -/
def synchronizeAndGetJob (cfg : Config μ) (choices : Choices) (f : Shared) :
    Option (Shared × Job) := do
  let f ← restoreIfNeeded f
  let f ← changeState cfg choices f
  some (createJob cfg choices f)

/-- `Fuzzer::JobDone`. -/
def jobDone (f : Shared) (job : Job) (discardSample : Bool) : Shared :=
  match job with
  | .fuzz e =>
      if discardSample then
        { f with
          allEntries := f.allEntries.modify e fun entry => { entry with discarded := 1 }
          numSamplesDiscarded := f.numSamplesDiscarded + 1 }
      else pushQueue f e
  | .processSample _ _ => { f with samplesPending := f.samplesPending - 1 }
  | .wait => f

/-! ### The sections of `RunSample` and `SaveSample` -/

section

variable [TinyInst]

/-- `Fuzzer::InterestingSample`, under `coverage_mutex`: `fuzzer_coverage`
afterwards, the new stable and the new variable coverage. -/
def interestingSample (fuzzerCoverage stableCoverage variableCoverage : Coverage) :
    Coverage × Coverage × Coverage :=
  let newStableCoverage := coverageDifference fuzzerCoverage stableCoverage
  let newVariableCoverage := coverageDifference fuzzerCoverage variableCoverage
  (mergeCoverage (mergeCoverage fuzzerCoverage newStableCoverage) newVariableCoverage,
    newStableCoverage, newVariableCoverage)

end

/-- The section of `SaveSample` under `output_mutex`: the sample gets the next file. -/
def numberSample (f : Shared) (sample : Sample) : Shared :=
  { f with
    sampleFiles := Function.update f.sampleFiles f.numSamples (some sample)
    numSamples := f.numSamples + 1 }

/-- The new entry of `SaveSample`. -/
def newEntry (sample : Sample) (sampleFilename sampleIndex : ℕ) : SampleQueueEntry where
  sample := sample
  sampleFilename := sampleFilename
  priority := 0
  sampleIndex := sampleIndex
  numRuns := 0
  numCrashes := 0
  numHangs := 0
  numNewcoverage := 0
  discarded := 0

/-- The section of `SaveSample` under `queue_mutex`. -/
def pushEntry (f : Shared) (entry : SampleQueueEntry) : Shared :=
  pushQueue { f with allEntries := f.allEntries ++ [entry] } f.allEntries.length

/-! ### The entry in a FUZZ job -/

/-- `priority--` of a `double`: from `-2^53` on it changes nothing. -/
def decrement (priority : ℤ) : ℤ := max (priority - 1) (-2 ^ 53)

/-- `Fuzzer::AdjustSamplePriority`. -/
def adjustSamplePriority (entry : SampleQueueEntry) (foundNewCoverage : Bool) : SampleQueueEntry :=
  { entry with priority := if foundNewCoverage then 0 else decrement entry.priority }

/-- What `FuzzJob` does to its entry after a run. -/
def recordRun (entry : SampleQueueEntry) (result : RunResult) (hasNewCoverage : Bool) :
    SampleQueueEntry :=
  let entry := adjustSamplePriority entry hasNewCoverage
  let entry := { entry with numRuns := entry.numRuns + 1 }
  let entry :=
    if hasNewCoverage then { entry with numNewcoverage := entry.numNewcoverage + 1 } else entry
  let entry := if result = .hang then { entry with numHangs := entry.numHangs + 1 } else entry
  if result = .crash then { entry with numCrashes := entry.numCrashes + 1 } else entry

/-- Whether `FuzzJob` gives the entry up after a run. -/
def tooManyFailures (cfg : Config μ) (entry : SampleQueueEntry) : Bool :=
  (decide (entry.numHangs > 10) && cfg.overHangRatio entry.numHangs entry.numRuns) ||
    (decide (entry.numCrashes > 100) && cfg.overCrashRatio entry.numCrashes entry.numRuns)

end Fuzzer
end Jackalope
