/-
# What `SynchronizeAndGetJob` can do

One call restores the state if it is the first, saves and synchronizes if that is
due, moves through the phases and creates a job.  Each part is inverted here once:
the state after it is the state before it with the fields it may change replaced,
so that whatever rests on the other fields carries over by itself.
-/

import Jackalope.Fuzzer.Threads
import Mathlib.Data.List.Range

namespace Jackalope
namespace Fuzzer

variable {μ : Type}

/-! ### Restoring -/

/-- An entry as it is restored: its sample comes from its file. -/
def loadEntry (sampleFiles : ℕ → Option Sample) (entry : SampleQueueEntry) : SampleQueueEntry :=
  { entry with sample := (sampleFiles entry.sampleFilename).getD Sample.empty }

/-- An entry that is restored is put behind the others, with the sample from its file; of
the rest only the queue changes.  -/
theorem restoreEntry_eq (f : Shared) (entry : SampleQueueEntry) :
    ∃ queue, restoreEntry f entry = { f with
      allEntries := f.allEntries ++ [loadEntry f.sampleFiles entry]
      sampleQueue := queue } := by
  unfold restoreEntry
  dsimp only
  split
  · exact ⟨_, rfl⟩
  · exact ⟨_, rfl⟩

/-- All entries that are restored are put behind each other, in the order in which they were
saved.  -/
theorem foldl_restoreEntry_eq (entries : List SampleQueueEntry) (f : Shared) :
    ∃ queue, entries.foldl restoreEntry f = { f with
      allEntries := f.allEntries ++ entries.map (loadEntry f.sampleFiles)
      sampleQueue := queue } := by
  induction entries generalizing f with
  | nil => exact ⟨f.sampleQueue, by simp⟩
  | cons entry entries ih =>
      obtain ⟨queue₁, h₁⟩ := restoreEntry_eq f entry
      obtain ⟨queue₂, h₂⟩ := ih (restoreEntry f entry)
      refine ⟨queue₂, ?_⟩
      rw [List.foldl_cons, h₂, h₁]
      simp

/-- **Restoring**, apart from the queue.  Either nothing was to be restored and nothing has
changed, or the entries, the counters and the coverage are those of `state.dat` and the
session goes on with the input samples.  -/
theorem restoreIfNeeded_eq {f f' : Shared} (h : restoreIfNeeded f = some f') :
    (f.state ≠ .restoreNeeded ∧ f' = f) ∨
      ∃ saved queue, f.state = .restoreNeeded ∧ f.stateDat = some saved ∧
        (saved.entries.foldl restoreEntry { f with
          numSamples := saved.numSamples
          numSamplesDiscarded := saved.numSamplesDiscarded
          fuzzerCoverage := saved.fuzzerCoverage }).sampleQueue = queue ∧
        f' = { f with
          state := .inputSampleProcessing
          numSamples := saved.numSamples
          numSamplesDiscarded := saved.numSamplesDiscarded
          fuzzerCoverage := saved.fuzzerCoverage
          allEntries := f.allEntries ++ saved.entries.map (loadEntry f.sampleFiles)
          sampleQueue := queue
          lastTimestamp := saved.lastTimestamp } := by
  unfold restoreIfNeeded at h
  split at h
  · rename_i hstate
    obtain ⟨f₁, h₁, rfl⟩ := Option.map_eq_some_iff.1 h
    obtain ⟨saved, hsaved, rfl⟩ := Option.map_eq_some_iff.1 h₁
    obtain ⟨queue, hqueue⟩ := foldl_restoreEntry_eq saved.entries { f with
      numSamples := saved.numSamples
      numSamplesDiscarded := saved.numSamplesDiscarded
      fuzzerCoverage := saved.fuzzerCoverage }
    refine Or.inr ⟨saved, queue, hstate, hsaved, by rw [hqueue], ?_⟩
    dsimp only
    rw [hqueue]
  · rename_i hstate
    cases h
    exact Or.inl ⟨hstate, rfl⟩

/-! ### Changing the phase -/

/-- What `SaveState` writes in state `f`. -/
def savedOf (f : Shared) : SavedState where
  numSamples := f.numSamples
  numSamplesDiscarded := f.numSamplesDiscarded
  fuzzerCoverage := f.fuzzerCoverage
  entries := f.allEntries
  lastTimestamp := f.lastTimestamp

/-- `state.dat` after the part that saves. -/
def stateDatAfter (choices : Choices) (f : Shared) : Option SavedState :=
  if f.state = .fuzzing ∧ choices.saveDue = true then some (savedOf f) else f.stateDat

/-- Of the state that the threads share saving changes the state file only, and that only in
the FUZZING phase when it is time to save.  -/
theorem saveIfDue_eq (choices : Choices) (f : Shared) :
    saveIfDue choices f = { f with stateDat := stateDatAfter choices f } := by
  unfold saveIfDue saveState stateDatAfter
  split
  · rename_i h
    rw [if_neg (by rw [h.1]; decide)]
    rfl
  · rfl

/-- What is known of the phases: nothing is left of a phase that is over. -/
structure PhaseOk (f : Shared) : Prop where
  restoreNeeded : f.state = .restoreNeeded → f.serverSamples = []
  input : f.state = .inputSampleProcessing → f.serverSamples = []
  server : f.state = .serverSampleProcessing → f.inputFiles = []
  generating : f.state = .generatingSamples → f.inputFiles = [] ∧ f.serverSamples = []
  fuzzing : f.state = .fuzzing → f.inputFiles = [] ∧ f.serverSamples = [] ∧ f.samplesPending = 0

/-- Restoring keeps the phases in order: it leads to the phase of the input files, and
nothing of the server is left.  -/
theorem PhaseOk.restoreIfNeeded {f f' : Shared} (h : PhaseOk f)
    (hf : restoreIfNeeded f = some f') : PhaseOk f' := by
  rcases restoreIfNeeded_eq hf with ⟨-, rfl⟩ | ⟨saved, queue, hstate, -, -, rfl⟩
  · exact h
  · exact ⟨nofun, fun _ => h.restoreNeeded hstate, nofun, nofun, nofun⟩

/-- Saving keeps the phases in order, since it does not change them.  -/
theorem PhaseOk.saveIfDue {choices : Choices} {f : Shared} (h : PhaseOk f) :
    PhaseOk (saveIfDue choices f) := by
  rw [saveIfDue_eq]
  exact ⟨h.restoreNeeded, h.input, h.server, h.generating, h.fuzzing⟩

/-- A synchronization with the server keeps the phases in order: it is due while samples are
fuzzed, and leads to the phase in which those of the server are processed.  -/
theorem PhaseOk.syncIfDue {cfg : Config μ} {choices : Choices} {f : Shared} (h : PhaseOk f) :
    PhaseOk (syncIfDue cfg choices f) := by
  unfold Fuzzer.syncIfDue
  split
  · rename_i hc
    have hinput := (h.fuzzing hc.1).1
    exact ⟨nofun, nofun, fun _ => hinput, nofun, nofun⟩
  · exact h

/-- Leaving the first phase keeps the phases in order: it is left when all input files were
handed out and all jobs for them are done.  -/
theorem PhaseOk.leaveInputProcessing {cfg : Config μ} {choices : Choices} {f : Shared}
    (h : PhaseOk f) : PhaseOk (leaveInputProcessing cfg choices f) := by
  unfold Fuzzer.leaveInputProcessing
  split
  · rename_i hc
    split
    · refine ⟨nofun, nofun, fun _ => ?_, nofun, nofun⟩
      dsimp only
      split
      · exact hc.2.1
      · exact hc.2.1
    · exact ⟨nofun, nofun, nofun, nofun, fun _ => ⟨hc.2.1, h.input hc.1, hc.2.2⟩⟩
  · exact h

/-- Leaving the phase of the server keeps the phases in order: it is left when all its
samples were handed out and all jobs for them are done.  -/
theorem PhaseOk.leaveServerProcessing {f : Shared} (h : PhaseOk f) :
    PhaseOk (leaveServerProcessing f) := by
  unfold Fuzzer.leaveServerProcessing
  split
  · rename_i hc
    exact ⟨nofun, nofun, nofun, nofun, fun _ => ⟨h.server hc.1, hc.2⟩⟩
  · exact h

/-- Generating is started, if there is no sample, from the state in which samples are
fuzzed.  -/
theorem PhaseOk.startGenerating {cfg : Config μ} {f f' : Shared} (h : PhaseOk f)
    (hf : startGenerating cfg f = some f') : PhaseOk f' := by
  unfold Fuzzer.startGenerating at hf
  split at hf
  · rename_i hc
    split at hf
    · cases hf
      obtain ⟨h₁, h₂, -⟩ := h.fuzzing hc.1
      exact ⟨nofun, nofun, nofun, fun _ => ⟨h₁, h₂⟩, nofun⟩
    · cases hf
  · cases hf
    exact h

/-- Generating is left when there are enough samples and all jobs for them are done.  -/
theorem PhaseOk.stopGenerating {f : Shared} (h : PhaseOk f) : PhaseOk (stopGenerating f) := by
  unfold Fuzzer.stopGenerating
  split
  · rename_i hc
    obtain ⟨h₁, h₂⟩ := h.generating hc.1
    exact ⟨nofun, nofun, nofun, nofun, fun _ => ⟨h₁, h₂, hc.2.2⟩⟩
  · exact h

/-- **All changes of the phase in `SynchronizeAndGetJob`**, one after the other, keep the
phases in order.  -/
theorem PhaseOk.changeState {cfg : Config μ} {choices : Choices} {f f' : Shared} (h : PhaseOk f)
    (hf : changeState cfg choices f = some f') : PhaseOk f' := by
  unfold Fuzzer.changeState at hf
  obtain ⟨f₁, h₁, rfl⟩ := Option.map_eq_some_iff.1 hf
  exact (h.saveIfDue.syncIfDue.leaveInputProcessing.leaveServerProcessing.startGenerating
    h₁).stopGenerating

/-- The state after the samples `new` were fetched, in phase `state`. -/
def fetched (f : Shared) (state : FuzzerState) (new : List Sample) (lastTimestamp : ℕ) : Shared :=
  { f with
    state := state
    serverSamples := f.serverSamples ++ numberFrom f.received.length new
    received := f.received ++ new
    lastTimestamp := lastTimestamp }

/-- A change of the phase alone is one that fetches no samples and leaves the time of the
server.  -/
theorem fetched_nil (f : Shared) (state : FuzzerState) :
    { f with state := state } = fetched f state [] f.lastTimestamp := by
  simp [fetched, numberFrom]

/-- **What a synchronization does**: nothing, or it puts the samples that came behind those
that are left and changes the phase.  -/
theorem syncIfDue_eq (cfg : Config μ) (choices : Choices) (f : Shared) :
    syncIfDue cfg choices f = f ∨ ∃ lastTimestamp, syncIfDue cfg choices f =
      fetched f .serverSampleProcessing choices.newSamples lastTimestamp := by
  unfold syncIfDue
  split
  · exact Or.inr ⟨_, rfl⟩
  · exact Or.inl rfl

/-- **What leaving the first phase does**: nothing, or it changes the phase and fetches what
the server has, if it is asked at all.  -/
theorem leaveInputProcessing_eq (cfg : Config μ) (choices : Choices) (f : Shared) :
    leaveInputProcessing cfg choices f = f ∨ f.state = .inputSampleProcessing ∧
      ∃ state new lastTimestamp, leaveInputProcessing cfg choices f =
        fetched f state new lastTimestamp ∧ (new = [] ∨ new = choices.newSamples) ∧
        state ≠ .restoreNeeded := by
  unfold leaveInputProcessing
  split
  · rename_i hc
    refine Or.inr ⟨hc.1, ?_⟩
    split
    · dsimp only
      split
      · exact ⟨_, [], _, fetched_nil f _, Or.inl rfl, nofun⟩
      · exact ⟨_, _, _, rfl, Or.inr rfl, nofun⟩
    · exact ⟨_, [], _, fetched_nil f _, Or.inl rfl, nofun⟩
  · exact Or.inl rfl

/-- The last three transitions change nothing but the phase: leaving the server's samples,
beginning to generate and ceasing to.  None of them leads back to a session that has still
to be restored.  -/
theorem leaveServer_start_stop_eq {cfg : Config μ} {f f' : Shared}
    (h : (startGenerating cfg (leaveServerProcessing f)).map stopGenerating = some f') :
    ∃ state, f' = { f with state := state } ∧ (f.state ≠ .restoreNeeded → state ≠ .restoreNeeded) := by
  obtain ⟨f₂, h₂, rfl⟩ := Option.map_eq_some_iff.1 h
  have hleave : ∃ state, leaveServerProcessing f = { f with state := state } ∧
      (f.state ≠ .restoreNeeded → state ≠ .restoreNeeded) := by
    unfold leaveServerProcessing
    split
    · exact ⟨_, rfl, nofun⟩
    · exact ⟨f.state, rfl, id⟩
  obtain ⟨st₁, h₁, hst₁⟩ := hleave
  rw [h₁] at h₂
  have hstart : ∃ state, f₂ = { f with state := state } ∧
      (f.state ≠ .restoreNeeded → state ≠ .restoreNeeded) := by
    unfold startGenerating at h₂
    split at h₂
    · split at h₂
      · cases h₂
        exact ⟨_, rfl, nofun⟩
      · cases h₂
    · cases h₂
      exact ⟨st₁, rfl, hst₁⟩
  obtain ⟨st₂, rfl, hst₂⟩ := hstart
  unfold stopGenerating
  split
  · exact ⟨_, rfl, nofun⟩
  · exact ⟨st₂, rfl, hst₂⟩

/-- **The part between restoring and the job.**  It may save, which writes what is
there; it may fetch, which adds the samples of the answer; and it may change the
phase.  Nothing else. -/
theorem changeState_eq {cfg : Config μ} {choices : Choices} {f f' : Shared}
    (h : changeState cfg choices f = some f') :
    ∃ state new lastTimestamp,
      f' = { fetched f state new lastTimestamp with
        stateDat := stateDatAfter choices f } ∧
      (new = [] ∨ new = choices.newSamples) ∧
      (f.state ≠ .restoreNeeded → state ≠ .restoreNeeded) := by
  unfold changeState at h
  rw [saveIfDue_eq] at h
  obtain ⟨state, rfl, hstate⟩ := leaveServer_start_stop_eq h
  set g : Shared := { f with stateDat := stateDatAfter choices f } with hg
  rcases syncIfDue_eq cfg choices g with hsync | ⟨last, hsync⟩
  · rw [hsync] at hstate ⊢
    rcases leaveInputProcessing_eq cfg choices g with hleave | ⟨-, st, new, last, hleave, hnew, hst⟩
    · rw [hleave] at hstate ⊢
      refine ⟨state, [], f.lastTimestamp, ?_, Or.inl rfl, hstate⟩
      rw [← fetched_nil]
    · rw [hleave] at hstate ⊢
      exact ⟨state, new, last, rfl, hnew, fun _ => hstate hst⟩
  · -- after the periodic synchronization the initial one is not due
    have hleave : leaveInputProcessing cfg choices (syncIfDue cfg choices g) =
        syncIfDue cfg choices g := by
      rw [hsync]
      exact if_neg fun hc => nomatch hc.1
    rw [hleave, hsync] at hstate ⊢
    exact ⟨state, _, last, rfl, Or.inr rfl, fun _ => hstate nofun⟩

/-! ### Creating the job -/

/-- **The job and what it takes.** One case for each kind: `WAIT` takes nothing, a FUZZ job
the top of the queue, and the others a file, a sample of the server or a new sample; what is
not named in a case is as it was.  -/
theorem createJob_cases {cfg : Config μ} {choices : Choices} {f f' : Shared} {job : Job}
    (h : createJob cfg choices f = (f', job)) :
    (job = .wait ∧ f' = f) ∨
    (∃ e, f.state = .fuzzing ∧ f.sampleQueue[0]? = some e ∧ job = .fuzz e ∧
      f' = { f with sampleQueue := Foundation.Heap.pop (keyOf f.allEntries) f.sampleQueue }) ∨
    (∃ i file inputFiles, f.state = .inputSampleProcessing ∧ f.inputFiles = (i, file) :: inputFiles ∧
      job = .processSample (.input i)
        (if file.size > cfg.maxSize then file.trim cfg.maxSize else file) ∧
      f' = { f with inputFiles := inputFiles, samplesPending := f.samplesPending + 1 }) ∨
    (∃ i sample serverSamples, f.state = .serverSampleProcessing ∧
      f.serverSamples = (i, sample) :: serverSamples ∧ job = .processSample (.server i) sample ∧
      f' = { f with serverSamples := serverSamples, samplesPending := f.samplesPending + 1 }) ∨
    (f.state = .generatingSamples ∧ job = .processSample .generated choices.generated ∧
      f' = { f with samplesPending := f.samplesPending + 1 }) := by
  unfold createJob at h
  split at h
  · rename_i hstate
    split at h
    · cases h
      exact Or.inl ⟨rfl, rfl⟩
    · split at h
      · cases h
        exact Or.inl ⟨rfl, rfl⟩
      · rename_i e he
        cases h
        exact Or.inr (Or.inl ⟨e, hstate, he, rfl, rfl⟩)
  · rename_i hstate
    split at h
    · cases h
      exact Or.inl ⟨rfl, rfl⟩
    · rename_i i file inputFiles hfiles
      cases h
      exact Or.inr (Or.inr (Or.inl ⟨i, file, inputFiles, hstate, hfiles, rfl, rfl⟩))
  · rename_i hstate
    split at h
    · cases h
      exact Or.inl ⟨rfl, rfl⟩
    · rename_i i sample serverSamples hsamples
      cases h
      exact Or.inr (Or.inr (Or.inr (Or.inl ⟨i, sample, serverSamples, hstate, hsamples, rfl, rfl⟩)))
  · rename_i hstate
    split at h
    · cases h
      exact Or.inl ⟨rfl, rfl⟩
    · cases h
      exact Or.inr (Or.inr (Or.inr (Or.inr ⟨hstate, rfl, rfl⟩)))
  · cases h
    exact Or.inl ⟨rfl, rfl⟩

/-- The three parts of a call: restoring if that is due, the transitions between the phases,
and the job.  -/
theorem synchronizeAndGetJob_eq {cfg : Config μ} {choices : Choices} {f f' : Shared} {job : Job}
    (h : synchronizeAndGetJob cfg choices f = some (f', job)) :
    ∃ f₁ f₂, restoreIfNeeded f = some f₁ ∧ changeState cfg choices f₁ = some f₂ ∧
      createJob cfg choices f₂ = (f', job) := by
  unfold synchronizeAndGetJob at h
  obtain ⟨f₁, h₁, h⟩ := Option.bind_eq_some_iff.1 h
  obtain ⟨f₂, h₂, h⟩ := Option.bind_eq_some_iff.1 h
  exact ⟨f₁, f₂, h₁, h₂, Option.some.inj h⟩

/-- **`SynchronizeAndGetJob` keeps the phases in order**, through all changes of the phase
and the job that it makes in the end, which is pending from then on.  -/
theorem PhaseOk.synchronizeAndGetJob {cfg : Config μ} {choices : Choices} {f f' : Shared}
    {job : Job} (h : PhaseOk f) (hf : synchronizeAndGetJob cfg choices f = some (f', job)) :
    PhaseOk f' := by
  obtain ⟨f₁, f₂, h₁, h₂, h₃⟩ := synchronizeAndGetJob_eq hf
  have hok := (h.restoreIfNeeded h₁).changeState h₂
  rcases createJob_cases h₃ with ⟨-, rfl⟩ | ⟨e, -, -, -, rfl⟩ | ⟨i, file, rest, hs, hl, -, rfl⟩ |
    ⟨i, sample, rest, hs, hl, -, rfl⟩ | ⟨hs, -, rfl⟩
  · exact hok
  · exact ⟨hok.restoreNeeded, hok.input, hok.server, hok.generating, hok.fuzzing⟩
  · exact ⟨by simp [hs], by simpa [hs] using hok.input, by simp [hs], by simp [hs], by simp [hs]⟩
  · exact ⟨by simp [hs], by simp [hs], by simpa [hs] using hok.server, by simp [hs], by simp [hs]⟩
  · exact ⟨by simp [hs], by simp [hs], by simp [hs], by simpa [hs] using hok.generating, by simp [hs]⟩

end Fuzzer
end Jackalope
