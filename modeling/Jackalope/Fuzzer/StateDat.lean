/-
# The file `state.dat`

`Fuzzer::SaveState` and `Fuzzer::RestoreState`, byte for byte: the counters, the
coverage, the global state of the mutators, the entries, each with its ranges and the
context of the mutator, the client of the server if there is one, and a sentry.  The
file says neither what the mutator is nor whether there is a client; the fuzzer that
reads has the options of the one that wrote.

A `double` and a `float` are their bits here.  A sample is what its file says, also
while its memory is freed.
-/

import Jackalope.Foundation.Heap
import Jackalope.Fuzzer.State
import Jackalope.Mutators.Contexts
import Jackalope.Names
import Mathlib.Data.List.TakeWhile

namespace Jackalope
namespace Fuzzer
namespace StateDat

open Foundation Foundation.Consumer Mutators

/-! ### Entries -/

/-- The fields of `SampleQueueEntry` that it saves itself. -/
structure Record where
  sampleFilename : Bytes
  ranges : List Range
  priority : UInt64
  sampleIndex : UInt64
  numRuns : UInt64
  numCrashes : UInt64
  numHangs : UInt64
  numNewcoverage : UInt64
  discarded : UInt32
  deriving DecidableEq

/-- `SampleQueueEntry`. -/
structure SampleQueueEntry extends Record where
  sample : Sample
  context : MutatorSampleContext

/-- Sizes and positions fit their types, and the name is a C string. -/
structure Record.Fits (r : Record) : Prop where
  filename : r.sampleFilename.length < 2 ^ 64
  noNul : 0 ∉ r.sampleFilename
  size : r.ranges.length < 2 ^ 64
  ranges : ∀ range ∈ r.ranges, range.rangeFrom < 2 ^ 64 ∧ range.rangeTo < 2 ^ 64

def writeRange (r : Range) : Bytes := fwrite 8 r.rangeFrom ++ fwrite 8 r.rangeTo

def readRange : FileReader Range := do
  let rangeFrom ← fread 8
  let rangeTo ← fread 8
  pure ⟨rangeFrom, rangeTo⟩

/-- `sample_filename = str_buf`: up to the first NUL. -/
def cString (buf : Bytes) : Bytes := buf.takeWhile (· ≠ 0)

/-- A buffer without a null byte is read as a string to its end.  -/
theorem cString_eq {buf : Bytes} (h : 0 ∉ buf) : cString buf = buf := by
  refine List.takeWhile_eq_self_iff.2 fun b hb => ?_
  exact decide_eq_true fun hzero => h (hzero ▸ hb)

/-- `SampleQueueEntry::Save`. -/
def Record.save (r : Record) : Bytes :=
  fwrite 8 r.sampleFilename.length ++ (r.sampleFilename ++
    (fwrite64 r.priority ++ (fwrite64 r.sampleIndex ++ (fwrite64 r.numRuns ++
      (fwrite64 r.numCrashes ++ (fwrite64 r.numHangs ++ (fwrite64 r.numNewcoverage ++
        (fwrite32 r.discarded ++ (fwrite 8 r.ranges.length ++ r.ranges.flatMap writeRange)))))))))

/-- `SampleQueueEntry::Load`. -/
def Record.load : FileReader Record := do
  let filenameSize ← fread 8
  let strBuf ← takeN () filenameSize
  let priority ← fread64
  let sampleIndex ← fread64
  let numRuns ← fread64
  let numCrashes ← fread64
  let numHangs ← fread64
  let numNewcoverage ← fread64
  let discarded ← fread32
  let rangesSize ← fread 8
  let ranges ← times readRange rangesSize
  pure {
    sampleFilename := cString strBuf
    ranges := ranges
    priority := priority
    sampleIndex := sampleIndex
    numRuns := numRuns
    numCrashes := numCrashes
    numHangs := numHangs
    numNewcoverage := numNewcoverage
    discarded := discarded }

/-- A range is two numbers of 64 bits.  -/
theorem decodes_readRange {r : Range} (hfrom : r.rangeFrom < 2 ^ 64) (hto : r.rangeTo < 2 ^ 64) :
    Decodes readRange (writeRange r) r :=
  (decodes_fread hfrom).bind ((decodes_fread hto).bind_pure _)

/-- An entry is read back, field by field in the order in which it is written, its file name
as a string behind its length.  -/
theorem Record.decodes_load {r : Record} (h : r.Fits) : Decodes Record.load r.save r := by
  have hranges : Decodes (times readRange r.ranges.length) (r.ranges.flatMap writeRange)
      r.ranges := by
    have := Decodes.times (f := id) r.ranges fun range hrange =>
      decodes_readRange (h.ranges range hrange).1 (h.ranges range hrange).2
    rwa [List.map_id] at this
  have hload : Decodes Record.load r.save { r with sampleFilename := cString r.sampleFilename } := by
    refine (decodes_fread h.filename).bind ((Decodes.takeN () rfl).bind ?_)
    refine (decodes_fread64 _).bind ((decodes_fread64 _).bind ((decodes_fread64 _).bind ?_))
    refine (decodes_fread64 _).bind ((decodes_fread64 _).bind ((decodes_fread64 _).bind ?_))
    exact (decodes_fread32 _).bind ((decodes_fread h.size).bind (hranges.bind_pure _))
  rwa [cString_eq h.noNul] at hload

/-! ### The client of the server -/

/-- What `CoverageClient` saves. -/
structure CoverageClient where
  lastTimestamp : UInt64
  clientId : UInt64
  numSamples : UInt64
  deriving DecidableEq

/-- `CoverageClient::SaveState`. -/
def CoverageClient.saveState (client : CoverageClient) : Bytes :=
  fwrite64 client.lastTimestamp ++ (fwrite64 client.clientId ++ fwrite64 client.numSamples)

/-- `CoverageClient::LoadState`. -/
def CoverageClient.loadState : FileReader CoverageClient := do
  let lastTimestamp ← fread64
  let clientId ← fread64
  let numSamples ← fread64
  pure ⟨lastTimestamp, clientId, numSamples⟩

/-- The client saves its identity and the time of its last update, and loads them, whatever
it had before.  -/
theorem CoverageClient.decodes_loadState (client : CoverageClient) :
    Decodes CoverageClient.loadState client.saveState client :=
  (decodes_fread64 _).bind ((decodes_fread64 _).bind ((decodes_fread64 _).bind_pure _))

/-- `if (server) server->SaveState(fp)`. -/
def saveServer : Option CoverageClient → Bytes
  | some client => client.saveState
  | none => []

/-- `if (server) server->LoadState(fp)`. -/
def loadServer : Option CoverageClient → FileReader (Option CoverageClient)
  | some _ => CoverageClient.loadState >>= fun client => pure (some client)
  | none => pure none

/-- The server part is there if the fuzzer was started with a server, and it has to be
started with one again to read it.  -/
theorem decodes_loadServer {server server' : Option CoverageClient}
    (h : server'.isSome = server.isSome) :
    Decodes (loadServer server') (saveServer server) server := by
  rcases server with _ | client <;> rcases server' with _ | client'
  · exact Decodes.pure none
  · cases h
  · cases h
  · exact client.decodes_loadState.bind_pure some

/-- `hex('fuzzstat')`. -/
def sentry : UInt64 := 0x66757a7a73746174

/-- The end of the file: "State could not be restored correctly" if it is another. -/
def readSentry : FileReader Unit := do
  let v ← fread64
  if v = sentry then pure () else fail ()

/-- The sentry is read back as what it is, and anything else in its place is fatal.  -/
theorem decodes_readSentry : Decodes readSentry (fwrite64 sentry) () :=
  (decodes_fread64 sentry).bind (v := []) (Decodes.pure ())

/-! ### The fuzzer -/

/-- The fields of `Fuzzer` that are saved or restored, with the statistics of
`RepeatMutator`. -/
structure Shared where
  state : FuzzerState
  numSamples : UInt64
  numSamplesDiscarded : UInt64
  totalExecs : UInt64
  fuzzerCoverage : Coverage
  repeatStats : RepeatStats
  allSamples : List Sample
  allEntries : List SampleQueueEntry
  sampleQueue : Array ℕ
  server : Option CoverageClient

/-- The entries that are not discarded, by their positions. -/
def notDiscarded (entries : List SampleQueueEntry) : List ℕ :=
  (List.range entries.length).filter fun e => entries[e]?.any fun entry => entry.discarded = 0

section

variable [CoverageBinary] {κ : Type*} [LinearOrder κ]

def writeEntry (mutator : Mutator) (entry : SampleQueueEntry) : Bytes :=
  entry.save ++ saveContext mutator entry.context

/-- `Fuzzer::SaveState`: what is in the file afterwards, if it is written. -/
def saveState (mutator : Mutator) (f : Shared) : Option Bytes :=
  if f.state = .inputSampleProcessing then none
  else some (fwrite64 f.numSamples ++ (fwrite64 f.numSamplesDiscarded ++ (fwrite64 f.totalExecs ++
    (writeCoverageBinary f.fuzzerCoverage ++ (saveGlobalState f.repeatStats mutator ++
      (fwrite 8 f.allEntries.length ++ (f.allEntries.flatMap (writeEntry mutator) ++
        (saveServer f.server ++ fwrite64 sentry))))))))

/-- The key of the entry at a position, in the order of `CmpEntryPtrs`. -/
def keyOf (key : SampleQueueEntry → κ) (entries : List SampleQueueEntry) (e : ℕ) : WithBot κ :=
  match entries[e]? with
  | some entry => (key entry : WithBot κ)
  | none => ⊥

variable (key : SampleQueueEntry → κ) (mutator : Mutator) (sampleFiles : Bytes → Option Sample)

/-- What a round of `RestoreState` does with an entry: `all_samples`, `all_entries` and,
unless it is discarded, `sample_queue`. -/
def addEntry (f : Shared) (entry : SampleQueueEntry) : Shared :=
  let allEntries := f.allEntries ++ [entry]
  { f with
    allSamples := f.allSamples ++ [entry.sample]
    allEntries := allEntries
    sampleQueue :=
      if entry.discarded = 0 then
        Heap.push (keyOf key allEntries) f.sampleQueue f.allEntries.length
      else f.sampleQueue }

/-- A round of the loop of `RestoreState`.  A file that is not there leaves its sample
empty. -/
def readEntry (f : Shared) : FileReader Shared := do
  let record ← Record.load
  let sample := (sampleFiles record.sampleFilename).getD Sample.empty
  let context ← loadContext mutator (createSampleContext mutator)
  pure (addEntry key f { record with sample := sample, context := context })

/-- `Fuzzer::RestoreState`, with the coverage still empty. -/
def restoreState (f : Shared) : FileReader Shared := do
  let numSamples ← fread64
  let numSamplesDiscarded ← fread64
  let totalExecs ← fread64
  let fuzzerCoverage ← readCoverageBinary
  let repeatStats ← loadGlobalState mutator f.repeatStats
  let f := { f with
    numSamples := numSamples
    numSamplesDiscarded := numSamplesDiscarded
    totalExecs := totalExecs
    fuzzerCoverage := fuzzerCoverage
    repeatStats := repeatStats }
  let numEntries ← fread 8
  let f ← rounds (readEntry key mutator sampleFiles) numEntries f
  let server ← loadServer f.server
  readSentry
  pure { f with server := server }

/-! ### The round trip -/

/-- Sizes and names fit, and the contexts are those of this mutator. -/
structure Shared.Fits (f : Shared) : Prop where
  size : f.allEntries.length < 2 ^ 64
  entries : ∀ entry ∈ f.allEntries, entry.Fits
  contexts : ∀ entry ∈ f.allEntries, ContextOf mutator entry.context

/-- A fuzzer that has not got any entries yet. -/
structure Shared.Fresh (f : Shared) : Prop where
  allSamples : f.allSamples = []
  allEntries : f.allEntries = []
  sampleQueue : f.sampleQueue = #[]

omit [CoverageBinary] [LinearOrder κ] in
/-- One entry more, and its name is among those that are not discarded unless it was.  -/
theorem notDiscarded_append (entries : List SampleQueueEntry) (entry : SampleQueueEntry) :
    notDiscarded (entries ++ [entry]) =
      notDiscarded entries ++ if entry.discarded = 0 then [entries.length] else [] := by
  have hold : ∀ e ∈ List.range entries.length,
      (entries ++ [entry])[e]?.any (fun entry => entry.discarded = 0) =
        entries[e]?.any fun entry => entry.discarded = 0 := by
    intro e he
    rw [List.getElem?_append_left (List.mem_range.1 he)]
  unfold notDiscarded
  rw [List.length_append, List.length_singleton, List.range_succ, List.filter_append,
    List.filter_congr hold, List.filter_singleton, List.getElem?_concat_length]
  by_cases h : entry.discarded = 0 <;> simp [h]

omit [CoverageBinary] in
/-- **The queue that is built while the entries are read** holds those that were not
discarded, whatever the order in which the heap keeps them.  -/
theorem addEntry_sampleQueue {f : Shared}
    (h : f.sampleQueue.toList.Perm (notDiscarded f.allEntries)) (entry : SampleQueueEntry) :
    (addEntry key f entry).sampleQueue.toList.Perm (notDiscarded (f.allEntries ++ [entry])) := by
  rw [notDiscarded_append]
  unfold addEntry
  by_cases hentry : entry.discarded = 0
  · simp only [hentry, if_true]
    refine (Heap.push_perm _ _ _).trans ((List.Perm.cons _ h).trans ?_)
    exact (List.perm_append_singleton _ _).symm
  · simpa only [hentry, if_false, List.append_nil] using h

omit [CoverageBinary] in
/-- **The loop adds the entries**, and nothing else; the queue holds those that are not
discarded.  The order of the heap is not part of it, only what is in it.  -/
theorem foldl_addEntry (entries : List SampleQueueEntry) {f : Shared}
    (h : f.sampleQueue.toList.Perm (notDiscarded f.allEntries)) :
    ∃ queue : Array ℕ, queue.toList.Perm (notDiscarded (f.allEntries ++ entries)) ∧
      entries.foldl (addEntry key) f = { f with
        allSamples := f.allSamples ++ entries.map (·.sample)
        allEntries := f.allEntries ++ entries
        sampleQueue := queue } := by
  induction entries generalizing f with
  | nil => exact ⟨f.sampleQueue, by simpa using h, by simp⟩
  | cons entry entries ih =>
      obtain ⟨queue, hqueue, heq⟩ := ih (addEntry_sampleQueue key h entry)
      rw [addEntry, List.append_assoc] at hqueue
      refine ⟨queue, hqueue, ?_⟩
      rw [List.foldl_cons, heq]
      simp [addEntry]

variable {key mutator sampleFiles}

omit [CoverageBinary] in
/-- **An entry is read back with everything it was saved with**, its context among it, and
its sample from its file; what follows in the state file is left for the next one.  -/
theorem decodes_readEntry {entry : SampleQueueEntry} (hfits : entry.Fits)
    (hcontext : ContextOf mutator entry.context)
    (hfile : sampleFiles entry.sampleFilename = some entry.sample) (f : Shared) :
    Decodes (readEntry key mutator sampleFiles f) (writeEntry mutator entry)
      (addEntry key f entry) := by
  have hload := decodes_loadContext hcontext (contextOf_createSampleContext mutator)
  have hentry : Decodes (readEntry key mutator sampleFiles f) (writeEntry mutator entry)
      (addEntry key f { entry with
        sample := (sampleFiles entry.sampleFilename).getD Sample.empty }) :=
    (Record.decodes_load hfits).bind (hload.bind_pure _)
  rwa [hfile] at hentry

/-- **The state that is restored is the one that was saved.** `RestoreState` reads what
`SaveState` wrote to its end: the counters, the coverage, the statistics of the repeat
mutator, all entries with the contexts of their mutators, and the state of the client.  The
queue is built anew, and has the entries that are not discarded.  -/
theorem restoreState_saveState {f start : Shared} {bytes : Bytes}
    (hsave : saveState mutator f = some bytes) (hf : f.Fits mutator)
    (hfiles : ∀ entry ∈ f.allEntries, sampleFiles entry.sampleFilename = some entry.sample)
    (hstart : start.Fresh) (hserver : start.server.isSome = f.server.isSome) :
    ∃ f', Decodes (restoreState key mutator sampleFiles start) bytes f' ∧
      f'.numSamples = f.numSamples ∧ f'.numSamplesDiscarded = f.numSamplesDiscarded ∧
      f'.totalExecs = f.totalExecs ∧ f'.fuzzerCoverage = f.fuzzerCoverage ∧
      (mutator.any (· = .repeatMutator) = true → f'.repeatStats = f.repeatStats) ∧
      f'.allEntries = f.allEntries ∧ f'.allSamples = f.allEntries.map (·.sample) ∧
      f'.server = f.server ∧ f'.sampleQueue.toList.Perm (notDiscarded f.allEntries) := by
  unfold saveState at hsave
  split at hsave
  · cases hsave
  cases hsave
  let counted : Shared := { start with
    numSamples := f.numSamples
    numSamplesDiscarded := f.numSamplesDiscarded
    totalExecs := f.totalExecs
    fuzzerCoverage := f.fuzzerCoverage
    repeatStats := if mutator.any (· = .repeatMutator) then f.repeatStats else start.repeatStats }
  obtain ⟨queue, hqueue, hloaded⟩ := foldl_addEntry key f.allEntries (f := counted) (by
    show start.sampleQueue.toList.Perm (notDiscarded start.allEntries)
    rw [hstart.sampleQueue, hstart.allEntries]
    exact List.Perm.refl [])
  have hrounds := Decodes.rounds (f := addEntry key) f.allEntries (fun entry hentry f' =>
    decodes_readEntry (hf.entries entry hentry) (hf.contexts entry hentry)
      (hfiles entry hentry) f') counted
  rw [hloaded] at hrounds
  refine ⟨_, (decodes_fread64 _).bind ((decodes_fread64 _).bind ((decodes_fread64 _).bind
    ((decodes_coverage _).bind ((decodes_loadGlobalState mutator _ _).bind
      ((decodes_fread hf.size).bind (hrounds.bind ((decodes_loadServer hserver).bind
        (decodes_readSentry.bind_pure _)))))))), rfl, rfl, rfl, rfl, fun hrepeat => if_pos hrepeat,
    ?_, ?_, rfl, ?_⟩
  · show start.allEntries ++ f.allEntries = f.allEntries
    rw [hstart.allEntries, List.nil_append]
  · show start.allSamples ++ f.allEntries.map (·.sample) = _
    rw [hstart.allSamples, List.nil_append]
  · have hall : counted.allEntries ++ f.allEntries = f.allEntries := by
      show start.allEntries ++ f.allEntries = f.allEntries
      rw [hstart.allEntries, List.nil_append]
    rwa [hall] at hqueue

end

/-- A sequence that has got to its second child, after the first went through part of a
region. -/
def sequenceMutator : Mutator :=
  .node (.mutatorSequence true false)
    [.node .baseDeterministicMutator [], .node .repeatMutator [.node .leaf []]]

def sequenceContext : MutatorSampleContext :=
  .node (.sequence 1) [.node (.deterministic [⟨0, 64, 7, 255⟩] 0) [], .node .plain [.node .plain []]]

/-- The context has the shape of the mutator.  -/
theorem contextOf_sequenceContext : ContextOf sequenceMutator sequenceContext := by
  have hregion : Kind.Keeps .baseDeterministicMutator (.deterministic [⟨0, 64, 7, 255⟩] 0) := by
    refine ⟨_, _, rfl, by decide, by decide, fun r hr => ?_⟩
    rw [List.mem_singleton.1 hr]
    exact ⟨by decide, by decide, by decide, by decide⟩
  have hleaf : ContextOf (.node .leaf []) (.node .plain []) := .node rfl .nil
  exact .node ⟨1, by decide, rfl⟩ (.cons (.node hregion .nil) (.cons (.node rfl (.cons hleaf .nil)) .nil))

/-- A discarded entry with a range, and one without. -/
def twoEntries : List SampleQueueEntry :=
  [⟨⟨sampleFilename 0, [⟨3, 9⟩], 0, 0, 200, 150, 0, 0, 1⟩, .empty, sequenceContext⟩,
    ⟨⟨sampleFilename 1, [], 0, 1, 0, 0, 0, 0, 0⟩, .empty, sequenceContext⟩]

/-- Two entries, one of them in the queue, and a client: what is written of them is read
back, every field of both entries, the statistics and what the client knows of its server.
-/
theorem restoreState_saveState_twoEntries : letI := taggedBinary
    ∃ (bytes : Bytes) (f' : Shared),
      Decodes (restoreState (fun entry => entry.sampleIndex.toNat) sequenceMutator
        (fun _ => some Sample.empty)
        ⟨.restoreNeeded, 0, 0, 0, [], ⟨.replicate _ 0, 0, 0, 0, 0⟩, [], [], #[], some ⟨0, 1, 0⟩⟩)
        bytes f' ∧
      f'.numSamples = 2 ∧ f'.allEntries = twoEntries ∧ f'.server = some ⟨5, 1, 3⟩ ∧
      f'.repeatStats.nstats = 9 ∧ f'.sampleQueue.toList.Perm [1] := by
  let _ := taggedBinary
  let f : Shared := ⟨.fuzzing, 2, 1, 1000, [], ⟨.replicate _ 4, 9, 9, 0, 0⟩, [], twoEntries, #[1],
    some ⟨5, 1, 3⟩⟩
  have hfits : f.Fits sequenceMutator := by
    refine ⟨by decide, fun entry hentry => ?_, fun entry hentry => ?_⟩
    · rcases List.mem_cons.1 hentry with rfl | hentry
      · exact ⟨by decide, nul_notMem_sampleFilename 0, by decide, by decide⟩
      · rw [List.mem_singleton.1 hentry]
        exact ⟨by decide, nul_notMem_sampleFilename 1, by decide, by decide⟩
    · rcases List.mem_cons.1 hentry with rfl | hentry
      · exact contextOf_sequenceContext
      · rw [List.mem_singleton.1 hentry]
        exact contextOf_sequenceContext
  have hfiles : ∀ entry ∈ f.allEntries,
      (fun _ : Bytes => some Sample.empty) entry.sampleFilename = some entry.sample := by
    simp [f, twoEntries]
  obtain ⟨f', hrestore, hsamples, -, -, -, hstats, hentries, -, hserver, hqueue⟩ :=
    @restoreState_saveState _ ℕ _ (fun entry => entry.sampleIndex.toNat) _
      (fun _ => some Sample.empty) f
      ⟨.restoreNeeded, 0, 0, 0, [], ⟨.replicate _ 0, 0, 0, 0, 0⟩, [], [], #[], some ⟨0, 1, 0⟩⟩ _
      rfl hfits hfiles ⟨rfl, rfl, rfl⟩ rfl
  exact ⟨_, f', hrestore, hsamples, hentries, hserver, by rw [hstats rfl], hqueue⟩

end StateDat
end Fuzzer
end Jackalope
