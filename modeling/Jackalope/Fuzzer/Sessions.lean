/-
# The files of the corpus

`SaveSample` takes a number and writes the sample's file under `output_mutex`, and
publishes the entry later under `queue_mutex`.  Between the two, `SaveState` may
save a count that includes the number without the entry.  A restored session begins
with the saved count, so it hands out again whatever was handed out after the save.

With `keep_samples_in_memory` off the sample of an entry is read from its file
whenever it is needed, so what is in the file has to be the sample.  Each entry owns
its file, and so does each thread that has not published its entry yet; ownership is
kept by every step (`FilesOk.step`), and what was saved owns its files too, below the
saved count.  `sample_files_kept` is the result for sessions, each of which finds what
the one before left when it was killed.
-/

import Jackalope.Foundation.Numbered
import Jackalope.Fuzzer.Corpus
import Jackalope.Names

namespace Jackalope
namespace Fuzzer

open Foundation

variable {τ μ : Type}

/-! ### Owners -/

/-- The file of a thread in `SaveSample`, while its entry is not published. -/
def Pc.file : Pc μ → Option (ℕ × Sample)
  | .saving _ sample (.create fileindex) | .saving _ sample (.push fileindex _) =>
      some (fileindex, sample)
  | _ => none

/-- The entries own their files. -/
def entryOwns (entries : List SampleQueueEntry) (e n : ℕ) (sample : Sample) : Prop :=
  ∃ entry, entries[e]? = some entry ∧ entry.sampleFilename = n ∧ entry.sample = sample

/-- The entries and the threads own their files. -/
def System.owns (s : System τ μ) : ℕ ⊕ τ → ℕ → Sample → Prop
  | .inl e => entryOwns s.shared.allEntries e
  | .inr t => fun n sample => (s.threads t).pc.file = some (n, sample)

/-- The entries that were saved own their files, below the count that was saved. -/
def SavedState.Owned (saved : SavedState) (files : ℕ → Option Sample) : Prop :=
  Foundation.Owned (entryOwns saved.entries) saved.numSamples files

/-- **The files are in order.**  Once the session has restored, its count is not
below the one that was saved. -/
structure FilesOk (s : System τ μ) : Prop where
  owned : Owned s.owns s.shared.numSamples s.shared.sampleFiles
  saved : ∀ saved, s.shared.stateDat = some saved → saved.Owned s.shared.sampleFiles ∧
    (s.shared.state ≠ .restoreNeeded → saved.numSamples ≤ s.shared.numSamples)

/-- Loading the entries that were saved gives back what was saved. -/
theorem SavedState.Owned.loadEntry {saved : SavedState} {files : ℕ → Option Sample}
    (h : saved.Owned files) : saved.entries.map (loadEntry files) = saved.entries := by
  refine List.map_congr_left (g := id) (fun entry hentry => ?_) |>.trans (List.map_id _)
  obtain ⟨e, he⟩ := List.getElem?_of_mem hentry
  have hfile := (h.written e entry.sampleFilename entry.sample ⟨entry, he, rfl, rfl⟩).2
  rw [Fuzzer.loadEntry, hfile]
  rfl

/-! ### Threads -/

section

variable [TinyInst]

/-- A call that has still to be judged has no file.  -/
theorem retryOrJudge_file (cfg : Config μ) (sample : Sample) (i : ℕ) (stable total : Coverage) :
    (retryOrJudge cfg sample i stable total).file = none := by
  rcases retryOrJudge_eq cfg sample i stable total with ⟨-, h⟩ | ⟨-, h⟩ <;> rw [h] <;> rfl

omit [TinyInst] in
/-- `SaveSample` begins without a file: it numbers the sample in its own section.  -/
theorem saveSample_file (cfg : Config μ) (savingFor : SavingFor) (sample : Sample) :
    (saveSample cfg savingFor sample).file = none := by
  unfold saveSample
  cases cfg.trackRanges <;> rfl

/-- What a thread does on its own leaves it without a file: it has one only between the
number that `SaveSample` takes and the entry that it publishes.  -/
theorem LocalStep.file {cfg : Config μ} {t : τ} {th th' : Thread μ} {event : Event τ}
    (h : LocalStep cfg t th event th') : th'.pc.file = none := by
  cases h with
  | wait | process | mutateDone | mutate | minimizeDone | saveRanges | finish => rfl
  | mutateTooLarge _ hpc =>
      rw [hpc]
      rfl
  | @firstRun sample outcome =>
      rcases afterFirstRun_eq cfg th.threadCoverage sample outcome with h | h <;> simp only [h]
      · rfl
      · exact retryOrJudge_file cfg sample _ _ _
  | @retry sample i stable total outcome =>
      rcases afterRetry_eq cfg sample i stable total outcome with h | h <;> simp only [h]
      · rfl
      · exact retryOrJudge_file cfg sample _ _ _
  | @minimize sample _ testSample _ context stable var total outcome =>
      rcases afterTest_eq cfg sample testSample context stable var total outcome with
        h | ⟨kept, context', -, h⟩ <;> simp only [h] <;> rfl
  | report => exact saveSample_file cfg _ _
  | @processed origin sample result hasNew =>
      rcases afterProcess_eq cfg sample result hasNew with h | h <;> simp only [h]
      · rfl
      · exact saveSample_file cfg _ _

end

section

variable [DecidableEq τ]

/-- Where a thread is changed to `th`, ownership is what it was, but for this thread
and for what became of the entries. -/
theorem System.owns_setThread {s : System τ μ} {t : τ} {th : Thread μ} {shared : Shared}
    {o : ℕ ⊕ τ} {n : ℕ} {x : Sample}
    (h : System.owns { s.setThread t th with shared := shared } o n x) :
    (∃ e, o = .inl e ∧ entryOwns shared.allEntries e n x) ∨
      (o = .inr t ∧ th.pc.file = some (n, x)) ∨ (∃ u, u ≠ t ∧ o = .inr u ∧ s.owns o n x) := by
  rcases o with e | u
  · exact Or.inl ⟨e, rfl, h⟩
  · by_cases hu : u = t
    · subst hu
      rw [System.owns] at h
      replace h : ((s.setThread u th).threads u).pc.file = some (n, x) := h
      rw [System.setThread_self] at h
      exact Or.inr (Or.inl ⟨rfl, h⟩)
    · replace h : ((s.setThread t th).threads u).pc.file = some (n, x) := h
      rw [System.setThread_threads, if_neg hu] at h
      exact Or.inr (Or.inr ⟨u, hu, rfl, h⟩)

/-- A thread that has no file now, or still has the one it had; the entries are as
they were, as far as their files are concerned. -/
theorem System.owns_frame {s : System τ μ} {t : τ} {th : Thread μ} {shared : Shared}
    (hth : th.pc.file = none ∨ th.pc.file = (s.threads t).pc.file)
    (hentries : ∀ e n x, entryOwns shared.allEntries e n x → entryOwns s.shared.allEntries e n x)
    (o : ℕ ⊕ τ) (n : ℕ) (x : Sample)
    (h : System.owns { s.setThread t th with shared := shared } o n x) : s.owns o n x := by
  rcases System.owns_setThread h with ⟨e, rfl, hown⟩ | ⟨rfl, hown⟩ | ⟨u, -, -, hown⟩
  · exact hentries e n x hown
  · rcases hth with hnone | hsame
    · cases hnone.symm.trans hown
    · exact hsame.symm.trans hown
  · exact hown

end

/-! ### Steps -/

/-- A call neither writes sample files nor hands out numbers, but it may restore. -/
theorem synchronizeAndGetJob_files {cfg : Config μ} {choices : Choices} {f f' : Shared} {job : Job}
    (h : synchronizeAndGetJob cfg choices f = some (f', job)) :
    ∃ f₁, restoreIfNeeded f = some f₁ ∧ f'.allEntries = f₁.allEntries ∧
      f'.stateDat = stateDatAfter choices f₁ ∧ f'.numSamples = f₁.numSamples ∧
      f'.sampleFiles = f₁.sampleFiles := by
  obtain ⟨f₁, f₂, h₁, h₂, h₃⟩ := synchronizeAndGetJob_eq h
  obtain ⟨state, new, last, rfl, -, -⟩ := changeState_eq h₂
  refine ⟨f₁, h₁, ?_⟩
  rcases createJob_cases h₃ with ⟨-, rfl⟩ | ⟨e, -, -, -, rfl⟩ | ⟨i, file, rest, -, -, -, rfl⟩ |
    ⟨i, sample, rest, -, -, -, rfl⟩ | ⟨-, -, rfl⟩ <;> exact ⟨rfl, rfl, rfl, rfl⟩

/-- `JobDone` leaves the counter and the files alone, and makes no entry the owner of
another file: it changes the priority queue and the mark of the entry, which say nothing of
files.  -/
theorem jobDone_files (f : Shared) (job : Job) (discardSample : Bool) :
    (jobDone f job discardSample).numSamples = f.numSamples ∧
    (jobDone f job discardSample).sampleFiles = f.sampleFiles ∧
    ∀ e n x, entryOwns (jobDone f job discardSample).allEntries e n x →
      entryOwns f.allEntries e n x := by
  cases job with
  | processSample | wait => exact ⟨rfl, rfl, fun _ _ _ h => h⟩
  | fuzz e' =>
      cases discardSample
      · exact ⟨rfl, rfl, fun _ _ _ h => h⟩
      · refine ⟨rfl, rfl, ?_⟩
        rintro e n x ⟨entry, he, rfl, rfl⟩
        replace he : (f.allEntries.modify e' _)[e]? = some entry := he
        rw [List.getElem?_modify] at he
        obtain ⟨entry₀, he₀, rfl⟩ := Option.map_eq_some_iff.1 he
        refine ⟨entry₀, he₀, ?_, ?_⟩ <;> split <;> rfl

/-- What is saved now owns its files. -/
theorem FilesOk.savedOf {s : System τ μ} (h : FilesOk s) :
    (savedOf s.shared).Owned s.shared.sampleFiles := by
  constructor
  · exact fun e n x ho => h.owned.written (.inl e) n x ho
  · exact fun e e' n x x' ho ho' => Sum.inl.inj (h.owned.alone (.inl e) (.inl e') n x x' ho ho')

/-- The first call of a restored session reads what was saved: the counter goes on behind
the last number of the session before, and each restored entry owns its file.  -/
theorem FilesOk.restore {s : System τ μ} (hok : FilesOk s) {f : Shared}
    (hinit : s.shared.state = .restoreNeeded →
      s.shared.allEntries = [] ∧ ∀ t, (s.threads t).pc.file = none)
    (hf : restoreIfNeeded s.shared = some f) :
    FilesOk { s with shared := f } ∧ f.state ≠ .restoreNeeded := by
  rcases restoreIfNeeded_eq hf with ⟨hne, rfl⟩ | ⟨saved, queue, hs, hsaved, -, rfl⟩
  · exact ⟨hok, hne⟩
  · obtain ⟨hnil, hnone⟩ := hinit hs
    have hown := (hok.saved saved hsaved).1
    refine ⟨⟨?_, ?_⟩, nofun⟩
    · refine hown.pass Sum.inl ?_
      rintro (e | t) n x ho
      · refine ⟨e, ?_, rfl⟩
        replace ho : entryOwns (s.shared.allEntries ++ _) e n x := ho
        rwa [hnil, List.nil_append, hown.loadEntry] at ho
      · cases (hnone t).symm.trans ho
    · intro saved' hsaved'
      cases hsaved.symm.trans hsaved'
      exact ⟨hown, fun _ => le_rfl⟩

section

variable [DecidableEq τ]

/-- **A call keeps the files in order**, whether it restores, saves or does neither: no
number is handed out in it, and what is saved are entries that own their files.  -/
theorem FilesOk.call {cfg : Config μ} {s : System τ μ} (hok : FilesOk s)
    (hinit : s.shared.state = .restoreNeeded →
      s.shared.allEntries = [] ∧ ∀ t, (s.threads t).pc.file = none)
    {t : τ} {choices : Choices} {shared : Shared} {job : Job} {th : Thread μ}
    (hth : th.pc.file = none) (hjob : synchronizeAndGetJob cfg choices s.shared = some (shared, job)) :
    FilesOk { s.setThread t th with shared := shared } := by
  obtain ⟨f, hf, hentries, hdat, hnum, hfiles⟩ := synchronizeAndGetJob_files hjob
  obtain ⟨hok', hne⟩ := hok.restore hinit hf
  constructor
  · show Owned _ shared.numSamples shared.sampleFiles
    rw [hnum, hfiles]
    refine hok'.owned.mono fun o n x ho => ?_
    refine System.owns_frame (s := { s with shared := f }) (Or.inl hth) (fun e n x h => ?_) o n x ho
    rwa [hentries] at h
  · intro saved hsaved
    show saved.Owned shared.sampleFiles ∧ (_ → saved.numSamples ≤ shared.numSamples)
    rw [hnum, hfiles]
    rw [show _ = _ from hdat] at hsaved
    unfold stateDatAfter at hsaved
    split at hsaved
    · cases hsaved
      exact ⟨hok'.savedOf, fun _ => le_rfl⟩
    · exact ⟨(hok'.saved saved hsaved).1, fun _ => (hok'.saved saved hsaved).2 hne⟩

/-- A step that neither hands out a number nor publishes an entry nor saves: the owners can
only become fewer, and the files of those that are left are as they were.  -/
theorem FilesOk.quiet {s : System τ μ} (hok : FilesOk s) {t : τ} {th : Thread μ} {shared : Shared}
    (hth : th.pc.file = none ∨ th.pc.file = (s.threads t).pc.file)
    (hentries : ∀ e n x, entryOwns shared.allEntries e n x → entryOwns s.shared.allEntries e n x)
    (hstate : shared.state = s.shared.state) (hdat : shared.stateDat = s.shared.stateDat)
    (hnum : shared.numSamples = s.shared.numSamples)
    (hfiles : shared.sampleFiles = s.shared.sampleFiles) :
    FilesOk { s.setThread t th with shared := shared } := by
  constructor
  · show Owned _ shared.numSamples shared.sampleFiles
    rw [hnum, hfiles]
    exact hok.owned.mono (System.owns_frame hth hentries)
  · intro saved hsaved
    show saved.Owned shared.sampleFiles ∧
      (shared.state ≠ .restoreNeeded → saved.numSamples ≤ shared.numSamples)
    rw [hnum, hfiles, hstate]
    exact hok.saved saved (hdat.symm.trans hsaved)

/-- **`SaveSample` numbers the sample.**  The number is not below the saved count, so
no file of a saved entry is written. -/
theorem FilesOk.number {s : System τ μ} (hok : FilesOk s) (hne : s.shared.state ≠ .restoreNeeded)
    {t : τ} {th : Thread μ} {sample : Sample}
    (hth : th.pc.file = some (s.shared.numSamples, sample)) :
    FilesOk { s.setThread t th with shared := numberSample s.shared sample } := by
  constructor
  · refine hok.owned.fresh (.inr t) sample fun o n x ho => ?_
    rcases System.owns_setThread ho with ⟨e, rfl, hown⟩ | ⟨rfl, hown⟩ | ⟨u, -, -, hown⟩
    · exact Or.inl hown
    · cases hth.symm.trans hown
      exact Or.inr ⟨rfl, rfl, rfl⟩
    · exact Or.inl hown
  · intro saved hsaved
    obtain ⟨hown, hle⟩ := hok.saved saved hsaved
    exact ⟨hown.frame_update (hle hne) _, fun _ => Nat.le_succ_of_le (hle hne)⟩

/-- **`SaveSample` publishes the entry**, to which the file passes: the thread owned the
number before the step and the entry owns it after, so it has one owner all the time.  -/
theorem FilesOk.push {s : System τ μ} (hok : FilesOk s) {t : τ} {th : Thread μ}
    {sample : Sample} {fileindex sampleIndex : ℕ}
    (hfile : (s.threads t).pc.file = some (fileindex, sample)) (hth : th.pc.file = none) :
    FilesOk { s.setThread t th with
      shared := pushEntry s.shared (newEntry sample fileindex sampleIndex) } := by
  refine ⟨?_, hok.saved⟩
  refine hok.owned.pass (fun o => if o = .inr t then .inl s.shared.allEntries.length else o) ?_
  intro o n x ho
  rcases System.owns_setThread ho with ⟨e, rfl, entry, he, rfl, rfl⟩ | ⟨rfl, hown⟩ |
    ⟨u, hu, rfl, hown⟩
  · replace he : (s.shared.allEntries ++ [newEntry sample fileindex sampleIndex])[e]? = some entry := he
    rw [List.getElem?_append] at he
    split at he
    · exact ⟨.inl e, ⟨entry, he, rfl, rfl⟩, rfl⟩
    · rename_i hlen
      obtain ⟨hlt, rfl⟩ := List.getElem?_eq_some_iff.1 he
      rw [List.length_singleton] at hlt
      refine ⟨.inr t, ?_, ?_⟩
      · show (s.threads t).pc.file = some (_, _)
        simpa [newEntry] using hfile
      · rw [if_pos rfl]
        exact congrArg Sum.inl (by omega)
  · cases hth.symm.trans hown
  · exact ⟨.inr u, hown, if_neg fun h => hu (Sum.inr.inj h)⟩

variable [TinyInst]

/-- **Every step keeps the files in order**, by the kinds of steps: a number that is handed
out gets its file, an entry that is published takes over the file of its thread, and all
else leaves numbers and files alone.  -/
theorem FilesOk.step {cfg : Config μ} {restore : Bool} {inputs : List Sample}
    {disk : Option SavedState} {files : ℕ → Option Sample} {tr : List (Event τ)}
    {s s' : System τ μ} {event : Event τ}
    (hrun : Run (Step cfg) (System.init restore inputs disk files) tr s) (hok : FilesOk s)
    (h : Step cfg s event s') : FilesOk s' := by
  -- while the state is to be restored, every thread is at the beginning
  have hinit : s.shared.state = .restoreNeeded →
      s.shared.allEntries = [] ∧ ∀ t, (s.threads t).pc.file = none := by
    intro hs
    rw [eq_init_of_restoreNeeded hrun hs]
    exact ⟨rfl, fun t => rfl⟩
  cases h with
  | thread hl => exact hok.quiet (Or.inl hl.file) (fun _ _ _ h => h) rfl rfl rfl rfl
  | getJob choices hpc hjob => exact hok.call hinit rfl hjob
  | @interesting t sample stable var total after newStable newVar hpc _ =>
      refine hok.quiet (Or.inl ?_) (fun _ _ _ h => h) rfl rfl rfl rfl
      rcases afterInteresting_eq cfg (s.threads t).job sample newStable newVar total with
        ⟨-, h⟩ | ⟨-, h⟩ | ⟨-, h⟩ <;> rw [h] <;> rfl
  | @number t savingFor sample hpc =>
      refine hok.number (fun hs => ?_) rfl
      rw [eq_init_of_restoreNeeded hrun hs] at hpc
      cases hpc
  | create hpc => exact hok.quiet (Or.inr (by rw [hpc]; rfl)) (fun _ _ _ h => h) rfl rfl rfl rfl
  | @push t savingFor sample fileindex sampleIndex hpc =>
      refine hok.push (by rw [hpc]; rfl) ?_
      cases savingFor <;> rfl
  | @adjust t e entry result hasNew hpc hjob he =>
      refine hok.quiet (Or.inl ?_) ?_ rfl rfl rfl rfl
      · dsimp only
        split <;> rfl
      · rintro e' n x ⟨entry', he', rfl, rfl⟩
        rw [List.getElem?_set] at he'
        split at he'
        · rename_i heq
          subst heq
          split at he'
          · cases he'
            have hsame := (recordRun_same entry result hasNew).1
            exact ⟨entry, he, hsame.sampleFilename.symm, hsame.sample.symm⟩
          · cases he'
        · exact ⟨entry', he', rfl, rfl⟩
  | @done t hpc =>
      obtain ⟨hnum, hfiles, hentries⟩ :=
        jobDone_files s.shared (s.threads t).job (s.threads t).discardSample
      exact hok.quiet (Or.inl rfl) hentries (jobDone_state _ _ _) (jobDone_entries _ _ _).1 hnum hfiles

/-- **The files are in order in every run**: each number below the counter has at most one
owner, an entry or a thread, and the file of an owner holds its sample.  If there was a
state to restore, the session has to restore it.  -/
theorem FilesOk.run {cfg : Config μ} {restore : Bool} {inputs : List Sample}
    {disk : Option SavedState} {files : ℕ → Option Sample} {tr : List (Event τ)} {s : System τ μ}
    (hdisk : ∀ saved, disk = some saved → saved.Owned files ∧ restore = true)
    (h : Run (Step cfg) (System.init restore inputs disk files) tr s) : FilesOk s := by
  induction h with
  | refl =>
      refine ⟨⟨?_, ?_⟩, fun saved hsaved => ⟨(hdisk saved hsaved).1, ?_⟩⟩
      · rintro (e | t) n x ho
        · obtain ⟨entry, he, -⟩ := ho
          cases he
        · cases ho
      · rintro (e | t) o' n x x' ho
        · obtain ⟨entry, he, -⟩ := ho
          cases he
        · cases ho
      · intro hne
        rw [(hdisk saved hsaved).2] at hne
        exact absurd rfl hne
  | snoc hrun hstep ih => exact ih.step hrun hstep

/-! ### Sessions in one output directory -/

/-- What a kill leaves of the sample files: a thread that was writing its file leaves
anything there. -/
def LeftBy (s : System τ μ) (files : ℕ → Option Sample) : Prop :=
  files = s.shared.sampleFiles ∨ ∃ t savingFor sample content,
    (s.threads t).pc = .saving savingFor sample .number ∧
      files = Function.update s.shared.sampleFiles s.shared.numSamples content

/-- **What is in an output directory** between sessions: nothing was saved yet, or a
session with any options and any threads was killed there at any time.  A session
that does not restore begins where nothing was saved. -/
inductive OutputDir : Option SavedState → (ℕ → Option Sample) → Prop
  | fresh (files) : OutputDir none files
  | killed {τ μ : Type} [DecidableEq τ] {disk files files' restore inputs tr} (cfg : Config μ)
      {s : System τ μ} : OutputDir disk files → (restore = false → disk = none) →
      Run (Step cfg) (System.init restore inputs disk files) tr s → LeftBy s files' →
      OutputDir s.shared.stateDat files'

/-- What a directory of sessions restores owns its files.  The induction is on the sessions:
each begins with what the last save of the one before has left.  -/
theorem OutputDir.owned {disk : Option SavedState} {files : ℕ → Option Sample}
    (h : OutputDir disk files) : ∀ saved, disk = some saved → saved.Owned files := by
  induction h with
  | fresh => exact nofun
  | @killed τ μ _ disk files files' restore inputs tr cfg s _ hbegin hrun hleft ih =>
      intro saved hsaved
      have hok := FilesOk.run (fun saved hs => ⟨ih saved hs, by
        cases restore
        · rw [hbegin rfl] at hs
          cases hs
        · rfl⟩) hrun
      obtain ⟨hown, hle⟩ := hok.saved saved hsaved
      rcases hleft with rfl | ⟨t, savingFor, sample, content, hpc, rfl⟩
      · exact hown
      · refine hown.frame_update (hle fun hs => ?_) content
        rw [eq_init_of_restoreNeeded hrun hs] at hpc
        cases hpc

/-- What holds of the entries and their files in every state of a session, and of
every step from there. -/
structure FilesKept (cfg : Config μ) (s : System τ μ) : Prop where
  distinct : (s.shared.allEntries.map fun entry => sampleFilename entry.sampleFilename).Nodup
  content : ∀ entry ∈ s.shared.allEntries,
    s.shared.sampleFiles entry.sampleFilename = some entry.sample
  /-- What a restored session would find. -/
  restorable : ∀ saved, s.shared.stateDat = some saved →
    (saved.entries.map fun entry => sampleFilename entry.sampleFilename).Nodup ∧
      ∀ entry ∈ saved.entries, s.shared.sampleFiles entry.sampleFilename = some entry.sample
  /-- No step overwrites the file of an entry. -/
  overwrites : ∀ event s', Step cfg s event s' → ∀ entry ∈ s.shared.allEntries,
    s'.shared.sampleFiles entry.sampleFilename = s.shared.sampleFiles entry.sampleFilename

omit [TinyInst] [DecidableEq τ] in
/-- Owned files have different names, and the content of their entries: the name is made of
the number, and no two owners have one number.  -/
theorem names_nodup {entries : List SampleQueueEntry} {next : ℕ} {files : ℕ → Option Sample}
    (h : Owned (entryOwns entries) next files) :
    (entries.map fun entry => sampleFilename entry.sampleFilename).Nodup ∧
      ∀ entry ∈ entries, files entry.sampleFilename = some entry.sample := by
  constructor
  · rw [List.nodup_iff_injective_getElem]
    intro i j hij
    simp only [List.getElem_map] at hij
    have hnumber := sampleFilename_injective hij
    exact Fin.ext (h.alone i j _ _ _ ⟨_, List.getElem?_eq_getElem _, rfl, rfl⟩
      ⟨_, List.getElem?_eq_getElem _, hnumber.symm, rfl⟩)
  · intro entry hentry
    obtain ⟨e, he⟩ := List.getElem?_of_mem hentry
    exact (h.written e _ _ ⟨entry, he, rfl, rfl⟩).2

/-- **No live entry shares or loses its sample file**: in every session, over every
interleaving of its threads, whatever sessions were killed before in the directory.  The
file names of the entries are different, and each file has the content of its entry, also
between the number that `SaveSample` takes and the entry that it publishes.  -/
theorem sample_files_kept {cfg : Config μ} {restore : Bool} {inputs : List Sample}
    {disk : Option SavedState} {files : ℕ → Option Sample} {tr : List (Event τ)} {s : System τ μ}
    (hdisk : OutputDir disk files) (hbegin : restore = false → disk = none)
    (hrun : Run (Step cfg) (System.init restore inputs disk files) tr s) : FilesKept cfg s := by
  have hstart : ∀ saved, disk = some saved → saved.Owned files ∧ restore = true := by
    intro saved hsaved
    refine ⟨hdisk.owned saved hsaved, Bool.eq_true_of_not_eq_false fun h => ?_⟩
    rw [hbegin h] at hsaved
    cases hsaved
  have hok := FilesOk.run hstart hrun
  obtain ⟨hdistinct, hcontent⟩ := @names_nodup s.shared.allEntries _ _ hok.savedOf
  refine ⟨hdistinct, hcontent, fun saved hsaved => names_nodup (hok.saved saved hsaved).1, ?_⟩
  intro event s' hstep entry hentry
  obtain ⟨e, he⟩ := List.getElem?_of_mem hentry
  obtain ⟨entry', he', hsame⟩ := hstep.entries_kept hrun he
  have hcontent' := (@names_nodup s'.shared.allEntries _ _
    (hok.step hrun hstep).savedOf).2 entry' (List.mem_of_getElem? he')
  rw [hsame.sampleFilename, hsame.sample] at hcontent'
  exact hcontent'.trans (hcontent entry hentry).symm

end

section

attribute [local instance] listTinyInst

/-- A session saves its first entry and is killed; the next one restores it, with the file
that the first session wrote.  -/
theorem run_restored : ∃ (tr tr' : List (Event Bool)) (s s' : System Bool SimpleTrimmerContext),
    Run (Step sessionConfig) (System.init false [sessionInput] none fun _ => none) tr s ∧
    Run (Step sessionConfig)
      (System.init true [] s.shared.stateDat s.shared.sampleFiles) tr' s' ∧
    s'.shared.allEntries = [newEntry sessionInput 0 0] :=
  ⟨_, _, _, _, Run.cons (Step.getJob (t := false) (chosen false []) rfl rfl)
    (Run.cons (Step.thread (t := false) (.process rfl rfl))
    (Run.cons (Step.thread (t := false) (.firstRun (reaches 1) rfl))
    (Run.cons (Step.interesting (t := false) rfl rfl)
    (Run.cons (Step.thread (t := false) (.report rfl))
    (Run.cons (Step.number (t := false) rfl)
    (Run.cons (Step.create (t := false) rfl)
    (Run.cons (Step.push (t := false) rfl)
    (Run.cons (Step.thread (t := false) (.finish rfl))
    (Run.cons (Step.thread (t := false) (.processed rfl rfl))
    (Run.cons (Step.done (t := false) rfl)
    (Run.cons (Step.getJob (t := false) (chosen false []) rfl rfl)
    (Run.single (Step.getJob (t := true) (chosen true []) rfl rfl))))))))))))),
    Run.single (Step.getJob (t := false) (chosen false []) rfl rfl), rfl⟩

/-- **A session that is restored** from what another one has saved finds its sample in the
file with its number.  The first session is killed after its save, and what is said of the
second one is said of the same directory.  -/
theorem sample_files_kept_restored : ∃ s : System Bool SimpleTrimmerContext,
    s.shared.allEntries = [newEntry sessionInput 0 0] ∧
      s.shared.sampleFiles 0 = some sessionInput := by
  obtain ⟨tr, tr', s, s', hrun, hrun', hentries⟩ := run_restored
  have hdisk : OutputDir s.shared.stateDat s.shared.sampleFiles :=
    .killed sessionConfig (.fresh _) (fun _ => rfl) hrun (Or.inl rfl)
  refine ⟨s', hentries, ?_⟩
  exact (sample_files_kept hdisk (by intro h; cases h) hrun').content (newEntry sessionInput 0 0)
    (by simp [hentries])

end

end Fuzzer
end Jackalope
