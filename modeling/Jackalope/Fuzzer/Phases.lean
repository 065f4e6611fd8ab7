/-
# The phases of a session

`SynchronizeAndGetJob` moves the fuzzer from phase to phase, and `samples_pending`
is what keeps a phase open while its samples are still being processed.
`scheduler_phase_discipline` collects what follows, over every interleaving of any
number of threads and whatever the server answers: the counter is right, no sample
is handed out twice, and while the fuzzer is fuzzing nothing of the earlier phases
is left.  So when the state is saved, which happens only then, every sample that
the server delivered has been dealt with.

The last part needs to know what became of each job that was handed out.  That is
`History`: a job is done, or its thread is still at it.
-/

import Jackalope.Fuzzer.Corpus
import Jackalope.Fuzzer.Samples

namespace Jackalope
namespace Fuzzer

open Foundation

variable {τ μ : Type}

/-! ### What is observed -/

/-- The input file that a job processes. -/
def Job.input : Job → Option ℕ
  | .processSample (.input i) _ => some i
  | _ => none

/-- The sample of the server that a job processes, with its number. -/
def Job.server : Job → Option (ℕ × Sample)
  | .processSample (.server i) sample => some (i, sample)
  | _ => none

/-- A `PROCESS_SAMPLE` job. -/
def Job.isProcess : Job → Bool
  | .processSample _ _ => true
  | _ => false

/-- Whether a thread has a `PROCESS_SAMPLE` job. -/
def Thread.processing (th : Thread μ) : Bool := th.pc.inJob && th.job.isProcess

/-- The input files handed out in a run, in order. -/
def handedInputs (tr : List (Event τ)) : List ℕ :=
  tr.filterMap fun e => e.job.bind Job.input

/-- The samples of the server handed out in a run, in order. -/
def handedServer (tr : List (Event τ)) : List (ℕ × Sample) :=
  tr.filterMap fun e => e.job.bind Job.server

/-- One event more: an input file was handed out with it, or not.  -/
theorem handedInputs_snoc (tr : List (Event τ)) (e : Event τ) :
    handedInputs (tr ++ [e]) = handedInputs tr ++ (e.job.bind Job.input).toList := by
  rw [handedInputs, List.filterMap_append]
  rcases h : e.job.bind Job.input with _ | i <;> simp [handedInputs, h]

/-- One event more: a sample of the server was handed out with it, or not.  -/
theorem handedServer_snoc (tr : List (Event τ)) (e : Event τ) :
    handedServer (tr ++ [e]) = handedServer tr ++ (e.job.bind Job.server).toList := by
  rw [handedServer, List.filterMap_append]
  rcases h : e.job.bind Job.server with _ | i <;> simp [handedServer, h]

/-- A sample of the server that was handed out came with a job of its own.  -/
theorem mem_handedServer {tr : List (Event τ)} {i : ℕ} {sample : Sample}
    (h : (i, sample) ∈ handedServer tr) :
    ∃ t choices, .gotJob t choices (.processSample (.server i) sample) ∈ tr := by
  obtain ⟨e, he, hjob⟩ := List.mem_filterMap.1 h
  obtain ⟨job, hjob, hserver⟩ := Option.bind_eq_some_iff.1 hjob
  obtain ⟨t, choices, rfl⟩ : ∃ t choices, e = .gotJob t choices job := by
    cases e <;> cases hjob
    exact ⟨_, _, rfl⟩
  have hname : job = .processSample (.server i) sample := by
    unfold Job.server at hserver
    split at hserver <;> cases hserver
    rfl
  exact ⟨t, choices, hname ▸ he⟩

/-- The samples of a later answer of the server are numbered on from those before.  -/
theorem numberFrom_append (n : ℕ) (old new : List Sample) :
    numberFrom n (old ++ new) = numberFrom n old ++ numberFrom (n + old.length) new := by
  rw [numberFrom, List.zipIdx_append, List.map_append]
  rfl

/-- The numbers are those from the first one on, without gaps.  -/
theorem map_fst_numberFrom (n : ℕ) (samples : List Sample) :
    (numberFrom n samples).map Prod.fst = List.range' n samples.length := by
  rw [numberFrom, List.map_map, ← List.zipIdx_map_snd n samples]
  rfl

/-! ### What a call takes -/

/-- **What one call takes** from the samples to be processed: the one it hands out,
which is then pending. -/
theorem synchronizeAndGetJob_takes {cfg : Config μ} {choices : Choices} {f f' : Shared} {job : Job}
    (h : synchronizeAndGetJob cfg choices f = some (f', job)) :
    f'.samplesPending = f.samplesPending + job.isProcess.toNat ∧
    job.input.toList ++ f'.inputFiles.map Prod.fst = f.inputFiles.map Prod.fst ∧
    ∃ new, f'.received = f.received ++ new ∧
      job.server.toList ++ f'.serverSamples =
        f.serverSamples ++ numberFrom f.received.length new := by
  obtain ⟨f₁, f₂, h₁, h₂, h₃⟩ := synchronizeAndGetJob_eq h
  -- restoring touches none of this
  have hrestore : f₁.samplesPending = f.samplesPending ∧ f₁.inputFiles = f.inputFiles ∧
      f₁.serverSamples = f.serverSamples ∧ f₁.received = f.received := by
    rcases restoreIfNeeded_eq h₁ with ⟨-, rfl⟩ | ⟨saved, queue, -, -, -, rfl⟩ <;>
      exact ⟨rfl, rfl, rfl, rfl⟩
  obtain ⟨hp₁, hi₁, hs₁, hr₁⟩ := hrestore
  -- a fetch numbers the new samples
  obtain ⟨state, new, last, hf₂, -, -⟩ := changeState_eq h₂
  have hfetch : f₂.samplesPending = f.samplesPending ∧ f₂.inputFiles = f.inputFiles ∧
      f₂.received = f.received ++ new ∧
      f₂.serverSamples = f.serverSamples ++ numberFrom f.received.length new := by
    rw [← hs₁, ← hr₁, hf₂]
    exact ⟨hp₁, hi₁, rfl, rfl⟩
  obtain ⟨hp₂, hi₂, hr₂, hs₂⟩ := hfetch
  rw [← hp₂, ← hi₂]
  rcases createJob_cases h₃ with ⟨rfl, rfl⟩ | ⟨e, -, -, rfl, rfl⟩ | ⟨i, file, rest, -, hl, rfl, rfl⟩ |
    ⟨i, sample, rest, -, hl, rfl, rfl⟩ | ⟨-, rfl, rfl⟩
  · exact ⟨rfl, rfl, _, hr₂, hs₂⟩
  · exact ⟨rfl, rfl, _, hr₂, hs₂⟩
  · exact ⟨rfl, by rw [hl]; rfl, _, hr₂, hs₂⟩
  · refine ⟨rfl, rfl, _, hr₂, ?_⟩
    rw [← hs₂, hl]
    rfl
  · exact ⟨rfl, rfl, _, hr₂, hs₂⟩

/-- A FUZZ job is handed out in state FUZZING. -/
theorem synchronizeAndGetJob_fuzz {cfg : Config μ} {choices : Choices} {f f' : Shared} {e : ℕ}
    (h : synchronizeAndGetJob cfg choices f = some (f', .fuzz e)) : f'.state = .fuzzing := by
  obtain ⟨f₁, f₂, -, -, h₃⟩ := synchronizeAndGetJob_eq h
  rcases createJob_cases h₃ with ⟨⟨⟩, -⟩ | ⟨x, hs, -, -, rfl⟩ | ⟨i, file, rest, -, -, ⟨⟩, -⟩ |
    ⟨i, sample, rest, -, -, ⟨⟩, -⟩ | ⟨-, ⟨⟩, -⟩
  exact hs

/-- **What `JobDone` does** to the samples to be processed: at most one is not pending
any more. -/
theorem jobDone_takes (f : Shared) (job : Job) (discardSample : Bool) :
    (jobDone f job discardSample).samplesPending = f.samplesPending - job.isProcess.toNat ∧
    (jobDone f job discardSample).state = f.state ∧
    (jobDone f job discardSample).inputFiles = f.inputFiles ∧
    (jobDone f job discardSample).serverSamples = f.serverSamples ∧
    (jobDone f job discardSample).received = f.received ∧
    (jobDone f job discardSample).stateDat = f.stateDat := by
  cases job with
  | processSample origin sample => exact ⟨rfl, rfl, rfl, rfl, rfl, rfl⟩
  | fuzz e => cases discardSample <;> exact ⟨rfl, rfl, rfl, rfl, rfl, rfl⟩
  | wait => exact ⟨rfl, rfl, rfl, rfl, rfl, rfl⟩

/-- The phases stay right when nothing is added to what is to be processed: as many input
files and samples of the server are left, no more are pending, and the phase is the same.
-/
theorem PhaseOk.congr {f f' : Shared} (h : PhaseOk f) (hstate : f'.state = f.state)
    (hinput : f'.inputFiles = f.inputFiles) (hserver : f'.serverSamples = f.serverSamples)
    (hpending : f'.samplesPending ≤ f.samplesPending) : PhaseOk f' := by
  refine ⟨?_, ?_, ?_, ?_, ?_⟩ <;> rw [hstate] <;> intro hs
  · rw [hserver]
    exact h.restoreNeeded hs
  · rw [hserver]
    exact h.input hs
  · rw [hinput]
    exact h.server hs
  · rw [hinput, hserver]
    exact h.generating hs
  · obtain ⟨h₁, h₂, h₃⟩ := h.fuzzing hs
    rw [hinput, hserver]
    exact ⟨h₁, h₂, by omega⟩

/-! ### The books -/

section

variable [Fintype τ]

/-- **The books of a session** with `inputs` input files: how many samples are
pending, and that what was handed out and what is left is what there was. -/
structure Books (inputs : ℕ) (tr : List (Event τ)) (s : System τ μ) : Prop where
  phase : PhaseOk s.shared
  pending : s.shared.samplesPending = countThreads Thread.processing s
  inputs : handedInputs tr ++ s.shared.inputFiles.map Prod.fst = List.range inputs
  server : handedServer tr ++ s.shared.serverSamples = numberFrom 0 s.shared.received

/-- A step that hands out no job and fetches nothing keeps the books, if it counts
right. -/
theorem Books.congr {inputs : ℕ} {tr : List (Event τ)} {s s' : System τ μ} {event : Event τ}
    (h : Books inputs tr s) (hjob : event.job = none) (hstate : s'.shared.state = s.shared.state)
    (hinput : s'.shared.inputFiles = s.shared.inputFiles)
    (hserver : s'.shared.serverSamples = s.shared.serverSamples)
    (hreceived : s'.shared.received = s.shared.received)
    (hle : s'.shared.samplesPending ≤ s.shared.samplesPending)
    (hpending : s'.shared.samplesPending = countThreads Thread.processing s') :
    Books inputs (tr ++ [event]) s' := by
  refine ⟨h.phase.congr hstate hinput hserver hle, hpending, ?_, ?_⟩
  · rw [handedInputs_snoc, hjob, hinput]
    simpa using h.inputs
  · rw [handedServer_snoc, hjob, hserver, hreceived]
    simpa using h.server

variable [TinyInst] [DecidableEq τ]

/-- **A step keeps the books.** What was handed out and what is left is, in this order, all
that there was to process, and the counter of pending samples is the number of threads that
process one.  -/
theorem Books.step {cfg : Config μ} {inputs : ℕ} {tr : List (Event τ)} {s s' : System τ μ}
    {event : Event τ} (hI : Books inputs tr s) (h : Step cfg s event s') :
    Books inputs (tr ++ [event]) s' := by
  rcases h.kinds with ⟨t, choices, job, shared, rfl, hpc, hjob, rfl⟩ | ⟨t, rfl, hpc, rfl⟩ | hw
  · obtain ⟨hphase, hpending, hinputs, hserver⟩ := hI
    obtain ⟨hp, hi, new, hr, hs⟩ := synchronizeAndGetJob_takes hjob
    refine ⟨hphase.synchronizeAndGetJob hjob, ?_, ?_, ?_⟩
    · have hcount := countThreads_setThread Thread.processing s t
        { s.threads t with pc := .working, job := job, discardSample := false }
      have hbefore : (s.threads t).processing = false := by rw [Thread.processing, hpc]; rfl
      rw [hbefore] at hcount
      show shared.samplesPending = countThreads Thread.processing (s.setThread t _)
      rw [hp, hpending]
      exact hcount.symm
    · rw [handedInputs_snoc, List.append_assoc]
      exact (congrArg (handedInputs tr ++ ·) hi).trans hinputs
    · rw [handedServer_snoc, List.append_assoc]
      show handedServer tr ++ (job.server.toList ++ shared.serverSamples) =
        numberFrom 0 shared.received
      rw [hs, hr, numberFrom_append, ← List.append_assoc, hserver, Nat.zero_add]
  · have hcount := countThreads_setThread Thread.processing s t
      { s.threads t with pc := .synchronize }
    have hbefore : (s.threads t).processing = (s.threads t).job.isProcess := by
      rw [Thread.processing, hpc]
      rfl
    rw [hbefore, ← hI.pending] at hcount
    obtain ⟨hp, hst, hi, hs, hr, -⟩ :=
      jobDone_takes s.shared (s.threads t).job (s.threads t).discardSample
    refine hI.congr rfl hst hi hs hr (hp.trans_le (Nat.sub_le _ _)) (hp.trans ?_)
    show _ = countThreads Thread.processing (s.setThread t _)
    exact Nat.sub_eq_of_eq_add hcount.symm
  · refine hI.congr hw.noJob hw.state hw.inputFiles hw.serverSamples hw.received
      hw.samplesPending.le (hw.samplesPending.trans (hI.pending.trans ?_))
    exact (h.countThreads_works hw fun inJob job => inJob && job.isProcess).symm

end

/-! ### What became of the jobs -/

section

variable [TinyInst] [DecidableEq τ]

/-- Who has pushed: a thread behind `SaveSample` in `RunSample`, and a thread whose
`RunSample` returns with new coverage, both in the job that they push for. -/
theorem Step.saved {cfg : Config μ} {s s' : System τ μ} {event : Event τ}
    (h : Step cfg s event s') (t : τ) :
    ((s'.threads t).pc.hasSaved = true →
      ((s.threads t).pc.hasSaved = true ∧ (s'.threads t).job = (s.threads t).job) ∨
        ∃ e sample, event = .pushed t (s'.threads t).job e sample) ∧
    ∀ job result, event = .returned t job result true →
      (s.threads t).pc.hasSaved = true ∧ job = (s.threads t).job := by
  by_cases ht : event.thread = t
  · cases h with
    | @thread u event th hl =>
        have hf := hl.facts
        obtain rfl : u = t := hf.thread.symm.trans ht
        rw [System.setThread_self]
        exact ⟨fun hs => Or.inl ⟨hf.hasSaved hs, hf.job⟩, hf.returned⟩
    | getJob | done =>
        obtain rfl := ht
        simp [System.setThread, Event.thread, Pc.hasSaved]
    | @interesting u sample stable var total after newStable newVar hpc _ =>
        obtain rfl : u = t := ht
        have hnot : (afterInteresting cfg (s.threads u).job sample newStable newVar total).hasSaved =
            false := by
          rcases afterInteresting_eq cfg (s.threads u).job sample newStable newVar total with
            ⟨-, h⟩ | ⟨-, h⟩ | ⟨-, h⟩ <;> rw [h] <;> rfl
        simp [System.setThread, hnot]
    | number | create =>
        obtain rfl := ht
        simp [System.setThread, Event.thread, Pc.hasSaved]
    | @push u savingFor sample i j hpc =>
        obtain rfl : u = t := ht
        refine ⟨fun _ => Or.inr ⟨s.shared.allEntries.length, sample, ?_⟩, ?_⟩
        · simp [System.setThread]
        · intro job result heq
          cases heq
    | @adjust u e entry result hasNew hpc hjob =>
        obtain rfl : u = t := ht
        refine ⟨fun hs => ?_, ?_⟩
        · simp only [System.setThread, Function.update_self] at hs
          split at hs <;> cases hs
        · rintro job r ⟨⟩
          exact ⟨by rw [hpc]; rfl, rfl⟩
  · rw [h.thread_eq ht]
    refine ⟨fun hs => Or.inl ⟨hs, rfl⟩, ?_⟩
    rintro job result rfl
    exact absurd rfl ht

/-- The property that a sample is the one of its `PROCESS_SAMPLE` job. -/
def ofJob (job : Job) (sample : Sample) : Prop :=
  ∀ origin sample', job = .processSample origin sample' → sample = sample'

omit [TinyInst] in
/-- What a thread runs in a job for a sample is that sample, and in a FUZZ job anything may
come.  -/
theorem feeds_ofJob (cfg : Config μ) : Feeds cfg ofJob := ⟨nofun, nofun⟩

/-- **What became of the jobs that were handed out**, and of the samples that were
interesting. -/
structure History (tr : List (Event τ)) (s : System τ μ) : Prop where
  handed : ∀ t choices job, .gotJob t choices job ∈ tr →
    .done t job ∈ tr ∨ ((s.threads t).pc.inJob = true ∧ (s.threads t).job = job)
  saved : ∀ t, (s.threads t).pc.hasSaved = true →
    ∃ e sample, .pushed t (s.threads t).job e sample ∈ tr
  returned : ∀ t job result, .returned t job result true ∈ tr →
    ∃ e sample, .pushed t job e sample ∈ tr
  pushed : ∀ t job e sample, .pushed t job e sample ∈ tr →
    ofJob job sample ∧ ∃ entry, s.shared.allEntries[e]? = some entry ∧ entry.sample = sample
  fed : ∀ t, (s.threads t).Fed ofJob

/-- **A step keeps the history**: a job that was handed out is done or its thread is still
in it, and a call that returns with new coverage has pushed its sample, which the corpus has
as an entry from then on.  -/
theorem History.step {cfg : Config μ} {restore : Bool} {inputs : List Sample}
    {disk : Option SavedState} {files : ℕ → Option Sample} {tr : List (Event τ)}
    {s s' : System τ μ} {event : Event τ}
    (hrun : Run (Step cfg) (System.init restore inputs disk files) tr s) (hI : History tr s)
    (h : Step cfg s event s') : History (tr ++ [event]) s' := by
  obtain ⟨hfed, -, hpush⟩ := h.fed (feeds_ofJob cfg)
    (fun origin sample _ origin' sample' heq => by cases heq; rfl) hI.fed
  refine ⟨?_, ?_, ?_, ?_, hfed⟩
  · intro t choices job hmem
    rcases List.mem_append.1 hmem with hmem | hmem
    · rcases hI.handed t choices job hmem with hdone | ⟨hin, hjob⟩
      · exact Or.inl (List.mem_append_left _ hdone)
      by_cases ht : event.thread = t
      · -- the thread that takes the step still has the job, or is done with it
        rcases h.kinds with ⟨u, c, j, shared, rfl, hpc, -⟩ | ⟨u, rfl, hpc, -⟩ | hw
        · obtain rfl : u = t := ht
          rw [hpc] at hin
          cases hin
        · obtain rfl : u = t := ht
          exact Or.inl (List.mem_append_right _ (by rw [hjob]; exact List.mem_singleton_self _))
        · subst ht
          exact Or.inr ⟨hw.inJob', hw.job.trans hjob⟩
      · rw [h.thread_eq ht]
        exact Or.inr ⟨hin, hjob⟩
    · obtain rfl := List.mem_singleton.1 hmem
      rcases h.kinds with ⟨u, c, j, shared, heq, hpc, -, rfl⟩ | ⟨u, heq, -⟩ | hw
      · cases heq
        simp [System.setThread, Pc.inJob]
      · cases heq
      · cases hw.noJob
  · intro t hs
    rcases (h.saved t).1 hs with ⟨hbefore, hjob⟩ | ⟨e, sample, rfl⟩
    · obtain ⟨e, sample, hmem⟩ := hI.saved t hbefore
      exact ⟨e, sample, List.mem_append_left _ (hjob ▸ hmem)⟩
    · exact ⟨e, sample, List.mem_append_right _ (List.mem_singleton_self _)⟩
  · intro t job result hmem
    rcases List.mem_append.1 hmem with hmem | hmem
    · obtain ⟨e, sample, hp⟩ := hI.returned t job result hmem
      exact ⟨e, sample, List.mem_append_left _ hp⟩
    · obtain rfl := List.mem_singleton.1 hmem
      obtain ⟨hs, rfl⟩ := (h.saved t).2 job result rfl
      obtain ⟨e, sample, hp⟩ := hI.saved t hs
      exact ⟨e, sample, List.mem_append_left _ hp⟩
  · intro t job e sample hmem
    rcases List.mem_append.1 hmem with hmem | hmem
    · obtain ⟨hof, entry, he, rfl⟩ := hI.pushed t job e sample hmem
      obtain ⟨entry', he', hsame⟩ := h.entries_kept hrun he
      exact ⟨hof, entry', he', hsame.sample⟩
    · obtain rfl := List.mem_singleton.1 hmem
      refine ⟨hpush t job e sample rfl, ?_⟩
      cases h with
      | thread hl => exact absurd rfl (hl.facts.thread ▸ hl.facts.notShared.2.2.1 job e sample)
      | push => exact ⟨_, List.getElem?_concat_length, rfl⟩

/-- So every run keeps it.  -/
theorem History.run {cfg : Config μ} {restore : Bool} {inputs : List Sample}
    {disk : Option SavedState} {files : ℕ → Option Sample} {tr : List (Event τ)} {s : System τ μ}
    (h : Run (Step cfg) (System.init restore inputs disk files) tr s) : History tr s := by
  induction h with
  | refl => exact ⟨nofun, nofun, nofun, nofun, fun t => ⟨nofun, trivial⟩⟩
  | snoc hrun hstep ih => exact ih.step hrun hstep

/-- The entries are still there, under their names and with their files. -/
def KeepsFiles (entries entries' : List SampleQueueEntry) : Prop :=
  ∀ (e : ℕ) (entry : SampleQueueEntry), entries[e]? = some entry →
    ∃ entry', entries'[e]? = some entry' ∧ entry'.sampleFilename = entry.sampleFilename

/-- **What was restored is still there.** A session that has restored `state.dat` has all
entries of it, in their order and with their files, in each of its later states.  -/
theorem restored_kept {cfg : Config μ} {inputs : List Sample} {disk : Option SavedState}
    {files : ℕ → Option Sample} {tr : List (Event τ)} {s : System τ μ}
    (h : Run (Step cfg) (System.init true inputs disk files) tr s)
    (hs : s.shared.state ≠ .restoreNeeded) :
    ∃ saved, disk = some saved ∧ KeepsFiles saved.entries s.shared.allEntries := by
  induction h with
  | refl => exact absurd rfl hs
  | @snoc tr s event s' hrun hstep ih =>
      by_cases hbefore : s.shared.state = .restoreNeeded
      · obtain rfl := eq_init_of_restoreNeeded hrun hbefore
        rcases hstep.kinds with ⟨t, choices, job, shared, rfl, -, hjob, rfl⟩ | ⟨t, rfl, hpc, -⟩ | hw
        · obtain ⟨f, hf, hentries, -⟩ := synchronizeAndGetJob_entries hjob
          rcases restoreIfNeeded_eq hf with ⟨hne, -⟩ | ⟨saved, queue, -, hsaved, -, rfl⟩
          · exact absurd hbefore hne
          · refine ⟨saved, hsaved, fun e entry he => ⟨loadEntry files entry, ?_, rfl⟩⟩
            refine (congrArg (·[e]?) hentries).trans ?_
            show ([] ++ saved.entries.map (loadEntry files))[e]? = _
            rw [List.nil_append, List.getElem?_map, he]
            rfl
        · cases hpc
        · cases hw.inJob
      · obtain ⟨saved, hsaved, hkept⟩ := ih hbefore
        refine ⟨saved, hsaved, fun e entry he => ?_⟩
        obtain ⟨entry', he', hname⟩ := hkept e entry he
        obtain ⟨entry'', he'', hsame⟩ := hstep.entries_kept hrun he'
        exact ⟨entry'', he'', hsame.sampleFilename.trans hname⟩

/-- The step saves the state, as it is before it. -/
def Event.Saves (s : System τ μ) (event : Event τ) : Prop :=
  ∃ t choices job, event = .gotJob t choices job ∧ s.shared.state = .fuzzing ∧
    choices.saveDue = true

/-- **What a step does to `state.dat`**: it saves what there was before it, or leaves it.  A
save happens in the call that asks for a job, under the same mutex, so nothing comes between
the state that is saved and the job.  -/
theorem Step.saves {cfg : Config μ} {s s' : System τ μ} {event : Event τ}
    (h : Step cfg s event s') :
    (event.Saves s → s'.shared.stateDat = some (savedOf s.shared)) ∧
      (¬ event.Saves s → s'.shared.stateDat = s.shared.stateDat) := by
  rcases h.kinds with ⟨t, choices, job, shared, rfl, hpc, hjob, rfl⟩ | ⟨t, rfl, hpc, rfl⟩ | hw
  · obtain ⟨f₁, h₁, -, -, hdat, -⟩ := synchronizeAndGetJob_entries hjob
    change shared.stateDat = _ at hdat
    rcases restoreIfNeeded_eq h₁ with ⟨-, rfl⟩ | ⟨saved, queue, hs, -, -, rfl⟩
    · constructor
      · rintro ⟨u, choices', job', heq, hstate, hdue⟩
        cases heq
        rw [stateDatAfter, if_pos ⟨hstate, hdue⟩] at hdat
        exact hdat
      · intro hnot
        rw [stateDatAfter, if_neg fun hdue => hnot ⟨t, choices, job, rfl, hdue⟩] at hdat
        exact hdat
    · constructor
      · rintro ⟨u, choices', job', -, hstate, -⟩
        rw [hs] at hstate
        cases hstate
      · intro _
        rw [stateDatAfter, if_neg fun hdue => nomatch hdue.1] at hdat
        exact hdat
  · exact ⟨nofun, fun _ => (jobDone_entries _ _ _).1⟩
  · refine ⟨?_, fun _ => hw.stateDat⟩
    rintro ⟨t, choices, job, rfl, -⟩
    cases hw.noJob

/-- **Only a fuzzing session saves**, and it saves what is there: any other step leaves
`state.dat` alone.  -/
theorem Step.stateDat {cfg : Config μ} {s s' : System τ μ} {event : Event τ}
    (h : Step cfg s event s') : s'.shared.stateDat = s.shared.stateDat ∨
      (s.shared.state = .fuzzing ∧ s'.shared.stateDat = some (savedOf s.shared)) := by
  by_cases hsaves : event.Saves s
  · refine Or.inr ⟨?_, h.saves.1 hsaves⟩
    obtain ⟨t, choices, job, -, hstate, -⟩ := hsaves
    exact hstate
  · exact Or.inl (h.saves.2 hsaves)

/-- The `k`-th sample of the server was processed: its job is done, and if `RunSample`
found it interesting, it is the sample of an entry. -/
def Processed (tr : List (Event τ)) (entries : List SampleQueueEntry) (k : ℕ) (sample : Sample) :
    Prop :=
  (∃ t, .done t (.processSample (.server k) sample) ∈ tr) ∧
    ∀ t result, .returned t (.processSample (.server k) sample) result true ∈ tr →
      ∃ e entry, .pushed t (.processSample (.server k) sample) e sample ∈ tr ∧
        entries[e]? = some entry ∧ entry.sample = sample

variable [Fintype τ]

/-- What holds of the phases after a run, and of every step from there. -/
structure PhaseDiscipline (cfg : Config μ) (restore : Bool) (inputs : List Sample)
    (disk : Option SavedState) (tr : List (Event τ)) (s : System τ μ) : Prop where
  /-- The counter is the number of threads with a `PROCESS_SAMPLE` job. -/
  pending : s.shared.samplesPending = countThreads Thread.processing s
  /-- The input files are handed out once each. -/
  inputs : (handedInputs tr).Nodup ∧ handedInputs tr ++ s.shared.inputFiles.map Prod.fst =
    List.range (if restore then 0 else inputs.length)
  /-- The samples put into `server_samples` are handed out once each. -/
  server : ((handedServer tr).map Prod.fst).Nodup ∧
    handedServer tr ++ s.shared.serverSamples = numberFrom 0 s.shared.received
  fuzzJobs : ∀ t choices e s', Step cfg s (.gotJob t choices (.fuzz e)) s' →
    s'.shared.state = .fuzzing
  fuzzing : s.shared.state = .fuzzing →
    s.shared.inputFiles = [] ∧ s.shared.serverSamples = [] ∧ s.shared.samplesPending = 0
  /-- What is saved has every sample that was received until then, and every entry that
  the session restored. -/
  saves : ∀ event s', Step cfg s event s' → s'.shared.stateDat = s.shared.stateDat ∨
    s'.shared.stateDat = some (savedOf s.shared) ∧
    (∀ k sample, s.shared.received[k]? = some sample →
      Processed tr (savedOf s.shared).entries k sample) ∧
    (restore = true →
      ∃ saved, disk = some saved ∧ KeepsFiles saved.entries (savedOf s.shared).entries)

/-- **The books of a session are right at every moment**: as many samples are pending as the
counter says, and each input file and each sample of the server was handed out once or is
still to be.  -/
theorem Books.run {cfg : Config μ} {restore : Bool} {inputs : List Sample}
    {disk : Option SavedState} {files : ℕ → Option Sample} {tr : List (Event τ)} {s : System τ μ}
    (h : Run (Step cfg) (System.init restore inputs disk files) tr s) :
    Books (if restore then 0 else inputs.length) tr s := by
  refine h.invariant _ ?_ fun tr s event s' hI hstep => hI.step hstep
  refine ⟨⟨fun _ => rfl, fun _ => rfl, ?_, ?_, ?_⟩, ?_, ?_, rfl⟩
  · cases restore <;> exact nofun
  · cases restore <;> exact nofun
  · cases restore <;> exact nofun
  · exact (countThreads_eq_zero.2 fun t => rfl).symm
  · cases restore
    · exact (map_fst_numberFrom 0 inputs).trans List.range_eq_range'.symm
    · rfl

/-- **When nothing is left to be processed, everything was.** In the FUZZING phase every
sample that the server has sent in this session has been handed out and its job is done, and
if `RunSample` found it interesting it is an entry.  -/
theorem processed_of_fuzzing {cfg : Config μ} {restore : Bool} {inputs : List Sample}
    {disk : Option SavedState} {files : ℕ → Option Sample} {tr : List (Event τ)} {s : System τ μ}
    (h : Run (Step cfg) (System.init restore inputs disk files) tr s)
    (hs : s.shared.state = .fuzzing) {k : ℕ} {sample : Sample}
    (hk : s.shared.received[k]? = some sample) : Processed tr s.shared.allEntries k sample := by
  have hbooks := Books.run h
  have hhistory := History.run h
  obtain ⟨-, hserver, hpending⟩ := hbooks.phase.fuzzing hs
  constructor
  · -- it was handed out, and no thread is processing
    have hmem : (k, sample) ∈ handedServer tr := by
      have hall := hbooks.server
      rw [hserver, List.append_nil] at hall
      rw [hall, numberFrom]
      exact List.mem_map.2 ⟨(sample, k), List.mem_zipIdx_iff_getElem?.2 hk, rfl⟩
    obtain ⟨t, choices, hgot⟩ := mem_handedServer hmem
    rcases hhistory.handed t choices _ hgot with hdone | ⟨hin, hjob⟩
    · exact ⟨t, hdone⟩
    · have hnone := countThreads_eq_zero.1 (hbooks.pending.symm.trans hpending) t
      rw [Thread.processing, hin, hjob] at hnone
      cases hnone
  · intro t result hreturned
    obtain ⟨e, sample', hpushed⟩ := hhistory.returned t _ result hreturned
    obtain ⟨hof, entry, he, hentry⟩ := hhistory.pushed t _ e sample' hpushed
    obtain rfl := hof _ _ rfl
    exact ⟨e, entry, hpushed, he, hentry⟩

/-- **The phase discipline of the scheduler**, in every session, over every interleaving of
its threads and whatever the server answers: the pending count is right, each input file and
each sample of the server is handed out once, fuzzing begins when all of them were
processed, and what is saved accounts for them.  -/
theorem scheduler_phase_discipline {cfg : Config μ} {restore : Bool} {inputs : List Sample}
    {disk : Option SavedState} {files : ℕ → Option Sample} {tr : List (Event τ)} {s : System τ μ}
    (h : Run (Step cfg) (System.init restore inputs disk files) tr s) :
    PhaseDiscipline cfg restore inputs disk tr s := by
  have hbooks := Books.run h
  refine ⟨hbooks.pending, ⟨?_, hbooks.inputs⟩, ⟨?_, hbooks.server⟩, ?_, hbooks.phase.fuzzing, ?_⟩
  · have hnodup := List.nodup_range (n := if restore then 0 else inputs.length)
    rw [← hbooks.inputs] at hnodup
    exact hnodup.of_append_left
  · have hnodup : (List.range' 0 s.shared.received.length).Nodup := List.nodup_range'
    rw [← map_fst_numberFrom, ← hbooks.server, List.map_append] at hnodup
    exact hnodup.of_append_left
  · intro t choices e s' hstep
    rcases hstep.kinds with ⟨u, c, job, shared, heq, -, hjob, rfl⟩ | ⟨u, heq, -⟩ | hw
    · cases heq
      exact synchronizeAndGetJob_fuzz hjob
    · cases heq
    · exact nomatch hw.noJob
  · intro event s' hstep
    rcases hstep.stateDat with hsame | ⟨hs, hsaved⟩
    · exact Or.inl hsame
    · refine Or.inr ⟨hsaved, fun k sample hk => processed_of_fuzzing h hs hk, ?_⟩
      rintro rfl
      exact restored_kept h (by rw [hs]; exact nofun)

end

section

attribute [local instance] listTinyInst

/-- A sample that the server sends. -/
def serverSample : Sample := Sample.init (str "B")

/-- The input file and a sample of the server become entries; then a thread gets a FUZZ job.
Up to there nothing is saved, and the next call, which hands out the job, saves the state.
-/
theorem run_server : ∃ (tr : List (Event Bool)) (s : System Bool SimpleTrimmerContext),
    Run (Step sessionConfig) (System.init false [sessionInput] none fun _ => none) tr s ∧
    s.shared.state = .fuzzing ∧ s.shared.received = [serverSample] ∧
    (∃ s', Step sessionConfig s (.gotJob true (chosen true []) (.fuzz 0)) s' ∧
      s'.shared.stateDat.isSome = true) ∧ s.shared.stateDat = none :=
  ⟨_, _, Run.cons (Step.getJob (t := false) (chosen false []) rfl rfl)
    (Run.cons (Step.thread (t := false) (.process rfl rfl))
    (Run.cons (Step.thread (t := false) (.firstRun (reaches 1) rfl))
    (Run.cons (Step.interesting (t := false) rfl rfl)
    (Run.cons (Step.thread (t := false) (.report rfl))
    (Run.cons (Step.number (t := false) rfl)
    (Run.cons (Step.create (t := false) rfl)
    (Run.cons (Step.push (t := false) rfl)
    (Run.cons (Step.thread (t := false) (.finish rfl))
    (Run.cons (Step.thread (t := false) (.processed rfl rfl))
    (Run.cons (Step.done (t := false) rfl)
    (Run.cons (Step.getJob (t := false) (chosen false [serverSample]) rfl rfl)
    (Run.cons (Step.thread (t := false) (.process rfl rfl))
    (Run.cons (Step.thread (t := false) (.firstRun (reaches 2) rfl))
    (Run.cons (Step.interesting (t := false) rfl rfl)
    (Run.cons (Step.thread (t := false) (.report rfl))
    (Run.cons (Step.number (t := false) rfl)
    (Run.cons (Step.create (t := false) rfl)
    (Run.cons (Step.push (t := false) rfl)
    (Run.cons (Step.thread (t := false) (.finish rfl))
    (Run.cons (Step.thread (t := false) (.processed rfl rfl))
    (Run.cons (Step.done (t := false) rfl)
    (Run.single (Step.getJob (t := false) (chosen false []) rfl rfl))))))))))))))))))))))),
    rfl, rfl, ⟨_, Step.getJob (t := true) (chosen true []) rfl rfl, rfl⟩, rfl⟩

/-- When this session saves, the sample of the server has been processed: it is the sample
of an entry of what was saved, since its run was interesting.  -/
theorem scheduler_phase_discipline_server :
    ∃ (tr : List (Event Bool)) (s : System Bool SimpleTrimmerContext),
      s.shared.state = .fuzzing ∧ s.shared.samplesPending = 0 ∧
        Processed tr (savedOf s.shared).entries 0 serverSample := by
  obtain ⟨tr, s, hrun, hs, hreceived, ⟨s', hstep, hsome⟩, hnone⟩ := run_server
  have h := scheduler_phase_discipline hrun
  refine ⟨tr, s, hs, (h.fuzzing hs).2.2, ?_⟩
  rcases h.saves _ s' hstep with hsame | ⟨-, hprocessed, -⟩
  · rw [hsame, hnone] at hsome
    cases hsome
  · exact hprocessed 0 serverSample (by rw [hreceived]; rfl)

end

end Fuzzer
end Jackalope
