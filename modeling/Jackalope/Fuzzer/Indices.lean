/-
# The indices of the entries

`SaveSample` names the file after `num_samples` and increments the count, under
`output_mutex`.  The index of the entry comes from `num_samples` again, but behind the
section: `sample_index = num_samples - 1`.  A thread that numbers its sample between
the two readings makes the index of the other too large, and then two entries may
have the same.

What counts is the interleaving: a run is `Undisturbed` if no thread numbers a sample
after another has and before that one goes on.  `Numbering` ties it to the state: the
count is ahead of a thread's number by the numbers that were handed out since, and the
indices are the numbers as long as the run is undisturbed.  `sample_indices_iff` is the
result, over all sessions in one directory.
-/

import Jackalope.Fuzzer.Sessions

namespace Jackalope
namespace Fuzzer

open Foundation

variable {τ μ : Type}

/-! ### Numbers and indices -/

/-- The number that a thread in `SaveSample` has taken, and the index of its entry once
this is created, until it is published. -/
def Pc.numbered : Pc μ → Option (ℕ × Option ℕ)
  | .saving _ _ (.create fileindex) => some (fileindex, none)
  | .saving _ _ (.push fileindex sampleIndex) => some (fileindex, some sampleIndex)
  | _ => none

/-- Where an entry is: in the corpus, or still with the thread that created it.  `n` is
the number in its file name, and `i` its index. -/
def System.created (s : System τ μ) : ℕ ⊕ τ → ℕ → ℕ → Prop
  | .inl e => fun n i => ∃ entry, s.shared.allEntries[e]? = some entry ∧
      entry.sampleFilename = n ∧ entry.sampleIndex = i
  | .inr t => fun n i => (s.threads t).pc.numbered = some (n, some i)

/-- Whether the event hands out a number. -/
def Event.isNumbered : Event τ → Bool
  | .numbered .. => true
  | _ => false

/-- **No thread numbers a sample between the number of another and what that one does
next**, which is to read `num_samples` again. -/
def Undisturbed (tr : List (Event τ)) : Prop :=
  ∀ a t n b event c, tr = a ++ .numbered t n :: (b ++ event :: c) → event.thread = t →
    (∀ x ∈ b, x.thread ≠ t) → ∀ x ∈ b, x.isNumbered = false

/-- The last that the thread did was to take the number `n`; `b` is what has happened
since. -/
def Pending (tr : List (Event τ)) (t : τ) (n : ℕ) (b : List (Event τ)) : Prop :=
  ∃ a, tr = a ++ .numbered t n :: b ∧ ∀ x ∈ b, x.thread ≠ t

/-- What is pending after a step: the number that the step has handed out, or one that was
pending before and belongs to a thread which did not take the step.  -/
theorem pending_snoc {tr : List (Event τ)} {event : Event τ} {t : τ} {n : ℕ}
    {b : List (Event τ)} :
    Pending (tr ++ [event]) t n b ↔ (event = .numbered t n ∧ b = []) ∨
      (event.thread ≠ t ∧ ∃ b', b = b' ++ [event] ∧ Pending tr t n b') := by
  constructor
  · rintro ⟨a, htr, hb⟩
    rcases trace_split_snoc.1 htr with ⟨-, hevent, rfl⟩ | ⟨b', rfl, htr'⟩
    · exact Or.inl ⟨hevent.symm, rfl⟩
    · refine Or.inr ⟨hb event (by simp), b', rfl, a, htr', fun x hx => hb x ?_⟩
      exact List.mem_append_left _ hx
  · rintro (⟨rfl, rfl⟩ | ⟨hne, b', rfl, a, rfl, hb'⟩)
    · exact ⟨tr, rfl, nofun⟩
    · refine ⟨a, by simp, fun x hx => ?_⟩
      rcases List.mem_append.1 hx with hx | hx
      · exact hb' x hx
      · rw [List.mem_singleton.1 hx]
        exact hne

/-- The step of a thread that has a number pending is what may make the difference: the run
is still undisturbed exactly if nobody else has got a number since that thread got its own.
-/
theorem undisturbed_snoc {tr : List (Event τ)} {event : Event τ} :
    Undisturbed (tr ++ [event]) ↔ Undisturbed tr ∧
      ∀ n b, Pending tr event.thread n b → ∀ x ∈ b, x.isNumbered = false := by
  constructor
  · intro h
    constructor
    · intro a t n b e c htr he hb
      exact h a t n b e (c ++ [event]) (trace_split_two_snoc.2 (Or.inr ⟨c, rfl, htr⟩)) he hb
    · rintro n b ⟨a, htr, hb⟩
      refine h a event.thread n b event [] ?_ rfl hb
      exact trace_split_two_snoc.2 (Or.inl ⟨htr, rfl, rfl⟩)
  · rintro ⟨htr, hlast⟩ a t n b e c hsplit rfl hb
    rcases trace_split_two_snoc.1 hsplit with ⟨htr', rfl, rfl⟩ | ⟨c', rfl, htr'⟩
    · exact hlast n b ⟨a, htr', hb⟩
    · exact htr a _ n b e c' htr' rfl hb

/-! ### Steps -/

/-- The numbers and indices of these entries. -/
def marks (entries : List SampleQueueEntry) : List (ℕ × ℕ) :=
  entries.map fun entry => (entry.sampleFilename, entry.sampleIndex)

/-- An entry that is replaced by one with the same number and index leaves the list of
numbers and indices as it is.  -/
theorem marks_set {entries : List SampleQueueEntry} {e : ℕ} {entry entry' : SampleQueueEntry}
    (he : entries[e]? = some entry) (hsame : entry.Same entry') :
    marks (entries.set e entry') = marks entries := by
  have hmark : (marks entries)[e]? = some (entry'.sampleFilename, entry'.sampleIndex) := by
    rw [marks, List.getElem?_map, he, hsame.sampleFilename, hsame.sampleIndex]
    rfl
  rw [marks, List.map_set, ← marks]
  obtain ⟨hlt, hget⟩ := List.getElem?_eq_some_iff.1 hmark
  rw [← hget]
  exact List.set_getElem_self hlt

/-- Restoring reads the samples from their files and leaves the numbers of the entries as
they were saved.  -/
theorem marks_restored (files : ℕ → Option Sample) (entries : List SampleQueueEntry) :
    marks (entries.map (loadEntry files)) = marks entries := by
  rw [marks, List.map_map]
  rfl

/-- `JobDone` changes no number of an entry: it sets a mark or pushes an index, and
`sample_index` is not touched.  -/
theorem jobDone_marks (f : Shared) (job : Job) (discardSample : Bool) :
    marks (jobDone f job discardSample).allEntries = marks f.allEntries := by
  rcases (jobDone_entries f job discardSample).2 with ⟨h, -⟩ | ⟨e, -, h, -⟩
  · rw [h]
  · rw [h, List.modify_eq_set_getElem?]
    cases he : f.allEntries[e]? with
    | none => rfl
    | some entry => exact marks_set he ⟨rfl, rfl, rfl⟩

/-- A call may restore entries, as its first thing, and numbers none: what the counter was
it is, but for what it is restored to.  -/
theorem synchronizeAndGetJob_marks {cfg : Config μ} {choices : Choices} {f f' : Shared} {job : Job}
    (h : synchronizeAndGetJob cfg choices f = some (f', job)) :
    (marks f'.allEntries = marks f.allEntries ∧ f'.numSamples = f.numSamples) ∨
      ∃ saved, f.state = .restoreNeeded ∧ f.stateDat = some saved ∧
        marks f'.allEntries = marks f.allEntries ++ marks saved.entries := by
  obtain ⟨f₁, hf₁, hentries, -, hnum, -⟩ := synchronizeAndGetJob_files h
  rcases restoreIfNeeded_eq hf₁ with ⟨-, rfl⟩ | ⟨saved, queue, hstate, hsaved, -, rfl⟩
  · exact Or.inl ⟨by rw [hentries], hnum⟩
  · refine Or.inr ⟨saved, hstate, hsaved, ?_⟩
    rw [hentries]
    show marks (f.allEntries ++ saved.entries.map _) = _
    rw [marks, List.map_append, ← marks, ← marks, marks_restored]

/-- A thread that has no file has no number either.  -/
theorem Pc.numbered_of_file {pc : Pc μ} (h : pc.file = none) : pc.numbered = none := by
  cases pc with
  | saving savingFor sample saving =>
      cases saving with
      | ranges | number => rfl
      | create | push => cases h
  | _ => rfl

/-- The indices are the numbers. -/
def MarksOk (entries : List SampleQueueEntry) : Prop := ∀ mark ∈ marks entries, mark.2 = mark.1

/-- So is the index of the entry that a thread has created. -/
def Pc.IndexOk (pc : Pc μ) : Prop := ∀ n i, pc.numbered = some (n, some i) → i = n

/-- A thread that has no number has none that could be wrong.  -/
theorem Pc.IndexOk.of_none {pc : Pc μ} (h : pc.numbered = none) : pc.IndexOk := by
  intro n i h'
  cases h.symm.trans h'

/-- **Every entry that was created has its number as its index.** -/
def System.Agrees (s : System τ μ) : Prop := ∀ o n i, s.created o n i → i = n

/-- What was created are the entries of the corpus and those that threads are about to push,
so all of them agree if both do.  -/
theorem System.agrees_iff {s : System τ μ} :
    s.Agrees ↔ MarksOk s.shared.allEntries ∧ ∀ t, (s.threads t).pc.IndexOk := by
  constructor
  · intro h
    refine ⟨fun mark hmark => ?_, fun t n i hpc => h (.inr t) n i hpc⟩
    obtain ⟨entry, hentry, rfl⟩ := List.mem_map.1 hmark
    obtain ⟨e, he⟩ := List.getElem?_of_mem hentry
    exact h (.inl e) _ _ ⟨entry, he, rfl, rfl⟩
  · rintro ⟨hmarks, hthreads⟩ (e | t) n i hcreated
    · obtain ⟨entry, he, rfl, rfl⟩ := hcreated
      exact hmarks _ (List.mem_map_of_mem (List.mem_of_getElem? he))
    · exact hthreads t n i hcreated

section

variable [TinyInst]

/-- What a thread does on its own begins where it has no file, so it neither gets one nor
loses one in such a step.  -/
theorem LocalStep.file_before {cfg : Config μ} {t : τ} {th th' : Thread μ} {event : Event τ}
    (h : LocalStep cfg t th event th') : th.pc.file = none := by
  cases h with
  | wait hpc | process hpc | mutateDone hpc | mutateTooLarge _ hpc | mutate _ hpc | firstRun _ hpc
  | retry _ hpc | minimizeDone hpc | minimize _ hpc | report hpc | saveRanges _ hpc | finish hpc
  | processed hpc =>
      rw [hpc]
      rfl

/-- Numbers are given in the section of `SaveSample` only, so no step that a thread takes on
its own gives one.  -/
theorem LocalStep.not_numbered {cfg : Config μ} {t : τ} {th th' : Thread μ} {event : Event τ}
    (h : LocalStep cfg t th event th') : event.isNumbered = false := by
  cases h <;> rfl

variable [DecidableEq τ]

/-- **What a step does to numbers and indices**: a sample is numbered, an entry is
created or published, or nothing happens to them, except that the first step of a
session may restore entries. -/
theorem Step.numbering {cfg : Config μ} {s s' : System τ μ} {event : Event τ}
    (h : Step cfg s event s') :
    (∃ t, event = .numbered t s.shared.numSamples ∧ (s.threads t).pc.numbered = none ∧
      (s'.threads t).pc.numbered = some (s.shared.numSamples, none) ∧
      s'.shared.numSamples = s.shared.numSamples + 1 ∧
      marks s'.shared.allEntries = marks s.shared.allEntries) ∨
    (∃ t n, event = .moved t ∧ (s.threads t).pc.numbered = some (n, none) ∧
      (s'.threads t).pc.numbered = some (n, some (s.shared.numSamples - 1)) ∧
      s'.shared = s.shared) ∨
    (∃ t n i, event.thread = t ∧ event.isNumbered = false ∧
      (s.threads t).pc.numbered = some (n, some i) ∧ (s'.threads t).pc.numbered = none ∧
      s'.shared.numSamples = s.shared.numSamples ∧
      marks s'.shared.allEntries = marks s.shared.allEntries ++ [(n, i)]) ∨
    (event.isNumbered = false ∧ (s.threads event.thread).pc.numbered = none ∧
      (s'.threads event.thread).pc.numbered = none ∧
      ((marks s'.shared.allEntries = marks s.shared.allEntries ∧
          s'.shared.numSamples = s.shared.numSamples) ∨
        ∃ saved, s.shared.state = .restoreNeeded ∧ s.shared.stateDat = some saved ∧
          marks s'.shared.allEntries = marks s.shared.allEntries ++ marks saved.entries)) := by
  have hself : ∀ t th shared,
      (({ s.setThread t th with shared := shared } : System τ μ).threads t).pc = th.pc := by
    intro t th shared
    exact congrArg Thread.pc (s.setThread_self t th)
  cases h with
  | @thread t event th hl =>
      refine Or.inr (Or.inr (Or.inr ⟨hl.not_numbered, ?_, ?_, Or.inl ⟨rfl, rfl⟩⟩))
      · rw [hl.facts.thread]
        exact Pc.numbered_of_file hl.file_before
      · rw [hl.facts.thread, s.setThread_self]
        exact Pc.numbered_of_file hl.file
  | getJob choices hpc hjob =>
      refine Or.inr (Or.inr (Or.inr ⟨rfl, ?_, ?_, synchronizeAndGetJob_marks hjob⟩))
      · rw [Event.thread, hpc]
        rfl
      · rw [Event.thread, hself]
        rfl
  | @interesting t sample stable var total after newStable newVar hpc _ =>
      refine Or.inr (Or.inr (Or.inr ⟨rfl, ?_, ?_, Or.inl ⟨rfl, rfl⟩⟩))
      · rw [Event.thread, hpc]
        rfl
      · rw [Event.thread, hself]
        rcases afterInteresting_eq cfg (s.threads t).job sample newStable newVar total with
          ⟨-, h⟩ | ⟨-, h⟩ | ⟨-, h⟩ <;> rw [h] <;> rfl
  | @number t savingFor sample hpc =>
      refine Or.inl ⟨t, rfl, ?_, ?_, rfl, rfl⟩
      · rw [hpc]
        rfl
      · rw [hself]
        rfl
  | @create t savingFor sample fileindex hpc =>
      refine Or.inr (Or.inl ⟨t, fileindex, rfl, ?_, ?_, rfl⟩)
      · rw [hpc]
        rfl
      · rw [s.setThread_self]
        rfl
  | @push t savingFor sample fileindex sampleIndex hpc =>
      refine Or.inr (Or.inr (Or.inl ⟨t, fileindex, sampleIndex, rfl, rfl, ?_, ?_, rfl, ?_⟩))
      · rw [hpc]
        rfl
      · rw [hself]
        cases savingFor <;> rfl
      · show marks (s.shared.allEntries ++ [newEntry sample fileindex sampleIndex]) = _
        rw [marks, List.map_append]
        rfl
  | @adjust t e entry result hasNew hpc hjob he =>
      refine Or.inr (Or.inr (Or.inr ⟨rfl, ?_, ?_, Or.inl ⟨?_, rfl⟩⟩))
      · rw [Event.thread, hpc]
        rfl
      · rw [Event.thread, hself]
        dsimp only
        split <;> rfl
      · exact marks_set he (recordRun_same entry result hasNew).1
  | @done t hpc =>
      refine Or.inr (Or.inr (Or.inr ⟨rfl, ?_, ?_, Or.inl ⟨?_, ?_⟩⟩))
      · rw [Event.thread, hpc]
        rfl
      · rw [Event.thread, hself]
        rfl
      · exact jobDone_marks _ _ _
      · exact (jobDone_files _ _ _).1

/-- `state.dat` is what it was, or holds the entries of now: a save writes the whole corpus
at once, under the queue mutex, so that it never holds a part of it.  -/
theorem Step.stateDat_eq {cfg : Config μ} {s s' : System τ μ} {event : Event τ}
    (h : Step cfg s event s') :
    s'.shared.stateDat = s.shared.stateDat ∨
      ∃ saved, s'.shared.stateDat = some saved ∧ saved.entries = s'.shared.allEntries := by
  rcases h.kinds with ⟨t, choices, job, shared, rfl, hpc, hjob, rfl⟩ | ⟨t, rfl, hpc, rfl⟩ | hw
  · obtain ⟨f, hf, hentries, -, hdat, -⟩ := synchronizeAndGetJob_entries hjob
    have hsame : f.stateDat = s.shared.stateDat := by
      rcases restoreIfNeeded_eq hf with ⟨-, rfl⟩ | ⟨saved, queue, -, -, -, rfl⟩ <;> rfl
    unfold stateDatAfter at hdat
    split at hdat
    · exact Or.inr ⟨_, hdat, hentries.symm⟩
    · exact Or.inl (hdat.trans hsame)
  · exact Or.inl (jobDone_entries _ _ _).1
  · exact Or.inl hw.stateDat

/-! ### The count and the trace -/

/-- **Who has a number pending, and how far the count is ahead of it.** -/
structure Numbering (tr : List (Event τ)) (s : System τ μ) : Prop where
  since : ∀ t n b, Pending tr t n b → (s.threads t).pc.numbered = some (n, none) ∧
    s.shared.numSamples = n + 1 + b.countP Event.isNumbered
  pending : ∀ t n, (s.threads t).pc.numbered = some (n, none) → ∃ b, Pending tr t n b

/-- **A step keeps the numbering**: a thread that has a number pending is behind the counter
by as many numbers as were given since.  -/
theorem Numbering.step {cfg : Config μ} {restore : Bool} {inputs : List Sample}
    {disk : Option SavedState} {files : ℕ → Option Sample} {tr : List (Event τ)}
    {s s' : System τ μ} {event : Event τ}
    (hrun : Run (Step cfg) (System.init restore inputs disk files) tr s) (hI : Numbering tr s)
    (h : Step cfg s event s') : Numbering (tr ++ [event]) s' := by
  have hnumbering := h.numbering
  constructor
  · intro t n b hpending
    rcases pending_snoc.1 hpending with ⟨rfl, rfl⟩ | ⟨hne, b', rfl, hpending'⟩
    · -- the number is new
      rcases hnumbering with ⟨u, hevent, -, hpc', hnum, -⟩ | ⟨u, m, hevent, -⟩ |
        ⟨u, m, i, -, hevent, -⟩ | ⟨hevent, -⟩
      · cases hevent
        exact ⟨hpc', hnum⟩
      · cases hevent
      · cases hevent
      · cases hevent
    · obtain ⟨hpc, hnum⟩ := hI.since t n b' hpending'
      rw [h.thread_eq hne, List.countP_append]
      refine ⟨hpc, ?_⟩
      rcases hnumbering with ⟨u, rfl, -, -, hnum', -⟩ | ⟨u, m, rfl, -, -, hshared⟩ |
        ⟨u, m, i, -, hevent, -, -, hnum', -⟩ | ⟨hevent, -, -, ⟨-, hnum'⟩ | ⟨saved, hstate, -⟩⟩
      · rw [hnum', hnum]
        rfl
      · rw [hshared, hnum]
        rfl
      · rw [hnum', hnum, List.countP_singleton, if_neg (by simp [hevent])]
        omega
      · rw [hnum', hnum, List.countP_singleton, if_neg (by simp [hevent])]
        omega
      · rw [eq_init_of_restoreNeeded hrun hstate] at hpc
        cases hpc
  · intro t n hpc'
    by_cases ht : event.thread = t
    · rcases hnumbering with ⟨u, rfl, -, hpc, -⟩ | ⟨u, m, rfl, -, hpc, -⟩ |
        ⟨u, m, i, hu, -, -, hpc, -⟩ | ⟨-, -, hpc, -⟩
      · obtain rfl : u = t := ht
        cases hpc.symm.trans hpc'
        exact ⟨[], pending_snoc.2 (Or.inl ⟨rfl, rfl⟩)⟩
      · obtain rfl : u = t := ht
        cases hpc.symm.trans hpc'
      · obtain rfl : u = t := hu.symm.trans ht
        cases hpc.symm.trans hpc'
      · rw [ht] at hpc
        cases hpc.symm.trans hpc'
    · rw [h.thread_eq ht] at hpc'
      obtain ⟨b, hb⟩ := hI.pending t n hpc'
      exact ⟨b ++ [event], pending_snoc.2 (Or.inr ⟨ht, b, rfl, hb⟩)⟩

/-- So every run keeps it, whatever was restored in the beginning: the numbers that are
pending are those of the trace.  -/
theorem Numbering.run {cfg : Config μ} {restore : Bool} {inputs : List Sample}
    {disk : Option SavedState} {files : ℕ → Option Sample} {tr : List (Event τ)} {s : System τ μ}
    (h : Run (Step cfg) (System.init restore inputs disk files) tr s) : Numbering tr s := by
  induction h with
  | refl =>
      constructor
      · rintro t n b ⟨a, htr, -⟩
        simp at htr
      · intro t n hpc
        cases hpc
  | snoc hrun hstep ih => exact ih.step hrun hstep

/-! ### The indices and the trace -/

omit [TinyInst] in
/-- One thread, and the others: the indices agree if those of the corpus do, that of the
thread does, and so do those of all other threads.  -/
theorem System.agrees_iff_thread {s : System τ μ} (t : τ) :
    s.Agrees ↔ MarksOk s.shared.allEntries ∧ (s.threads t).pc.IndexOk ∧
      ∀ u, t ≠ u → (s.threads u).pc.IndexOk := by
  rw [System.agrees_iff]
  refine and_congr_right fun _ => ⟨fun hall => ⟨hall t, fun u _ => hall u⟩, fun hall u => ?_⟩
  by_cases hu : t = u
  · rw [← hu]
    exact hall.1
  · exact hall.2 u hu

/-- A step changes the thread that takes it. -/
theorem Step.agrees_iff {cfg : Config μ} {s s' : System τ μ} {event : Event τ}
    (h : Step cfg s event s') :
    s'.Agrees ↔ MarksOk s'.shared.allEntries ∧ (s'.threads event.thread).pc.IndexOk ∧
      ∀ u, event.thread ≠ u → (s.threads u).pc.IndexOk := by
  rw [System.agrees_iff_thread event.thread]
  refine and_congr_right fun _ => and_congr_right fun _ => forall₂_congr fun u hu => ?_
  rw [h.thread_eq hu]

omit [TinyInst] [DecidableEq τ] in
/-- **What a thread reads now is the index of its number** iff none was handed out since
it took it. -/
theorem Numbering.index_iff {tr : List (Event τ)} {s : System τ μ} (hI : Numbering tr s) {t : τ}
    {n : ℕ} (hpc : (s.threads t).pc.numbered = some (n, none)) :
    s.shared.numSamples - 1 = n ↔
      ∀ m b, Pending tr t m b → ∀ x ∈ b, x.isNumbered = false := by
  have hnone : ∀ b : List (Event τ),
      b.countP Event.isNumbered = 0 ↔ ∀ x ∈ b, x.isNumbered = false := by
    intro b
    simp [List.countP_eq_zero]
  constructor
  · intro hindex m b hb
    obtain ⟨hpcm, hnum⟩ := hI.since t m b hb
    cases hpc.symm.trans hpcm
    exact (hnone b).1 (by omega)
  · intro htrace
    obtain ⟨b, hb⟩ := hI.pending t n hpc
    have hzero := (hnone b).2 (htrace n b hb)
    have hnum := (hI.since t n b hb).2
    omega

/-- **A step keeps the indices right unless it reads the count too late**: that is,
unless a thread with a number pending goes on behind another number. -/
theorem Step.agrees_snoc {cfg : Config μ} {restore : Bool} {inputs : List Sample}
    {disk : Option SavedState} {files : ℕ → Option Sample} {tr : List (Event τ)}
    {s s' : System τ μ} {event : Event τ}
    (hdisk : ∀ saved, disk = some saved → MarksOk saved.entries)
    (hrun : Run (Step cfg) (System.init restore inputs disk files) tr s)
    (h : Step cfg s event s') :
    s'.Agrees ↔ s.Agrees ∧
      ∀ n b, Pending tr event.thread n b → ∀ x ∈ b, x.isNumbered = false := by
  have hI := Numbering.run hrun
  rw [h.agrees_iff, System.agrees_iff_thread event.thread]
  -- without a number pending, the trace does not matter
  have hnone : (∀ n, (s.threads event.thread).pc.numbered ≠ some (n, none)) →
      ∀ n b, Pending tr event.thread n b → ∀ x ∈ b, x.isNumbered = false :=
    fun hpc n b hb => absurd (hI.since _ n b hb).1 (hpc n)
  rcases h.numbering with ⟨t, rfl, hpc, hpc', -, hmarks⟩ | ⟨t, n, rfl, hpc, hpc', hshared⟩ |
    ⟨t, n, i, rfl, -, hpc, hpc', -, hmarks⟩ | ⟨-, hpc, hpc', hrest⟩
  · have hok : (s.threads t).pc.IndexOk := .of_none hpc
    have hok' : (s'.threads t).pc.IndexOk := fun n i h => by cases hpc'.symm.trans h
    have htrace := hnone fun n h => by cases hpc.symm.trans h
    rw [MarksOk, hmarks, ← MarksOk]
    exact ⟨fun ⟨hm, _, hu⟩ => ⟨⟨hm, hok, hu⟩, htrace⟩, fun ⟨⟨hm, _, hu⟩, _⟩ => ⟨hm, hok', hu⟩⟩
  · -- the index is read
    have hok : (s.threads t).pc.IndexOk := fun n i h => by cases hpc.symm.trans h
    have hcount : (s'.threads t).pc.IndexOk ↔
        ∀ m b, Pending tr t m b → ∀ x ∈ b, x.isNumbered = false := by
      rw [← hI.index_iff hpc]
      refine ⟨fun hok' => hok' n _ hpc', fun hindex m i h => ?_⟩
      cases hpc'.symm.trans h
      exact hindex
    rw [hshared]
    exact ⟨fun ⟨hm, hok', hu⟩ => ⟨⟨hm, hok, hu⟩, hcount.1 hok'⟩,
      fun ⟨⟨hm, _, hu⟩, htrace⟩ => ⟨hm, hcount.2 htrace, hu⟩⟩
  · -- the entry moves to the corpus
    have hok' : (s'.threads event.thread).pc.IndexOk := .of_none hpc'
    have htrace := hnone fun n h => by cases hpc.symm.trans h
    have hmove : MarksOk s'.shared.allEntries ↔
        MarksOk s.shared.allEntries ∧ (s.threads event.thread).pc.IndexOk := by
      rw [MarksOk, hmarks, List.forall_mem_append, ← MarksOk, List.forall_mem_singleton]
      refine and_congr_right fun _ => ⟨fun heq m j h => ?_, fun hok => hok n i hpc⟩
      cases hpc.symm.trans h
      exact heq
    rw [hmove]
    exact ⟨fun ⟨⟨hm, hok⟩, _, hu⟩ => ⟨⟨hm, hok, hu⟩, htrace⟩,
      fun ⟨⟨hm, hok, hu⟩, _⟩ => ⟨⟨hm, hok⟩, hok', hu⟩⟩
  · have hok : (s.threads event.thread).pc.IndexOk := .of_none hpc
    have hok' : (s'.threads event.thread).pc.IndexOk := .of_none hpc'
    have htrace := hnone fun n h => by cases hpc.symm.trans h
    have hentries : MarksOk s'.shared.allEntries ↔ MarksOk s.shared.allEntries := by
      rcases hrest with ⟨hmarks, -⟩ | ⟨saved, hstate, hsaved, hmarks⟩
      · rw [MarksOk, hmarks, ← MarksOk]
      · rw [eq_init_of_restoreNeeded hrun hstate] at hsaved
        rw [MarksOk, hmarks, List.forall_mem_append, ← MarksOk, ← MarksOk]
        exact and_iff_left (hdisk saved hsaved)
    rw [hentries]
    exact ⟨fun ⟨hm, _, hu⟩ => ⟨⟨hm, hok, hu⟩, htrace⟩, fun ⟨⟨hm, _, hu⟩, _⟩ => ⟨hm, hok', hu⟩⟩

/-- **The indices are the numbers iff the run is undisturbed.** `SaveSample` takes
`sample_index` from `num_samples` after it has let go of the mutex, so an index is one more
than the number of its file exactly if no other thread took a number in between.  -/
theorem agrees_iff_undisturbed {cfg : Config μ} {restore : Bool} {inputs : List Sample}
    {disk : Option SavedState} {files : ℕ → Option Sample} {tr : List (Event τ)} {s : System τ μ}
    (hdisk : ∀ saved, disk = some saved → MarksOk saved.entries)
    (h : Run (Step cfg) (System.init restore inputs disk files) tr s) :
    s.Agrees ↔ Undisturbed tr := by
  induction h with
  | refl =>
      refine iff_of_true ?_ ?_
      · rintro (e | t) n i hcreated
        · obtain ⟨entry, he, -⟩ := hcreated
          cases he
        · cases hcreated
      · intro a t n b event c htr
        simp at htr
  | snoc hrun hstep ih => rw [hstep.agrees_snoc hdisk hrun, undisturbed_snoc, ih]

/-- What an undisturbed run saves has the right indices, too, so that the session which
restores it begins as one that was never killed.  -/
theorem saved_marksOk {cfg : Config μ} {restore : Bool} {inputs : List Sample}
    {disk : Option SavedState} {files : ℕ → Option Sample} {tr : List (Event τ)} {s : System τ μ}
    (hdisk : ∀ saved, disk = some saved → MarksOk saved.entries)
    (h : Run (Step cfg) (System.init restore inputs disk files) tr s) (htr : Undisturbed tr) :
    ∀ saved, s.shared.stateDat = some saved → MarksOk saved.entries := by
  induction h with
  | refl => exact hdisk
  | @snoc tr s event s' hrun hstep ih =>
      intro saved hsaved
      rcases hstep.stateDat_eq with hsame | ⟨saved', hsaved', hentries⟩
      · exact ih (undisturbed_snoc.1 htr).1 saved (hsame.symm.trans hsaved)
      · cases hsaved'.symm.trans hsaved
        rw [hentries]
        exact (System.agrees_iff.1 ((agrees_iff_undisturbed hdisk (hrun.snoc hstep)).2 htr)).1

/-! ### Sessions -/

/-- **An output directory in which every session was undisturbed** until it was
killed. -/
inductive OrderlyDir : Option SavedState → (ℕ → Option Sample) → Prop
  | fresh (files) : OrderlyDir none files
  | killed {τ μ : Type} [DecidableEq τ] {disk files files' restore inputs tr} (cfg : Config μ)
      {s : System τ μ} : OrderlyDir disk files → (restore = false → disk = none) →
      Run (Step cfg) (System.init restore inputs disk files) tr s → Undisturbed tr →
      LeftBy s files' → OrderlyDir s.shared.stateDat files'

/-- An orderly directory is one that sessions left behind.  -/
theorem OrderlyDir.toOutputDir {disk : Option SavedState} {files : ℕ → Option Sample}
    (h : OrderlyDir disk files) : OutputDir disk files := by
  induction h with
  | fresh files => exact .fresh files
  | killed cfg _ hbegin hrun _ hleft ih => exact .killed cfg ih hbegin hrun hleft

/-- What an orderly directory restores has the index of its file in every entry.  -/
theorem OrderlyDir.marksOk {disk : Option SavedState} {files : ℕ → Option Sample}
    (h : OrderlyDir disk files) : ∀ saved, disk = some saved → MarksOk saved.entries := by
  induction h with
  | fresh => exact nofun
  | killed cfg _ _ hrun htr _ ih => exact saved_marksOk ih hrun htr

omit [TinyInst] [DecidableEq τ] in
/-- Whoever has an entry, or is about to publish one, owns the file of its number, so two of
them never have one number, even where they have one index.  -/
theorem System.created.owns {s : System τ μ} {o : ℕ ⊕ τ} {n i : ℕ} (h : s.created o n i) :
    ∃ sample, s.owns o n sample := by
  rcases o with e | t
  · obtain ⟨entry, he, rfl, -⟩ := h
    exact ⟨_, entry, he, rfl, rfl⟩
  · replace h : (s.threads t).pc.numbered = some (n, some i) := h
    show ∃ sample, (s.threads t).pc.file = some (n, sample)
    cases hpc : (s.threads t).pc with
    | saving savingFor sample saving =>
        rw [hpc] at h
        cases saving with
        | ranges | number | create => cases h
        | push =>
            cases h
            exact ⟨sample, rfl⟩
    | _ =>
        rw [hpc] at h
        cases h

/-- **The indices identify the samples**: an index is the number in the file name, it
belongs to one entry, and entries with the same priority are in strict order. -/
structure IndicesOk (s : System τ μ) : Prop where
  number : s.Agrees
  distinct : ∀ o o' n n' i, s.created o n i → s.created o' n' i → o = o'
  strict : ∀ (e e' : ℕ) (entry entry' : SampleQueueEntry), s.shared.allEntries[e]? = some entry →
    s.shared.allEntries[e']? = some entry' → e ≠ e' → entry.priority = entry'.priority →
      (cmpEntryPtrs entry entry' = true ↔ cmpEntryPtrs entry' entry = false)

/-- **Indices identify samples iff no number comes between the two readings** of
`num_samples` by another thread: over every interleaving of a session's threads, in a
directory whose earlier sessions were undisturbed. -/
theorem sample_indices_iff {cfg : Config μ} {restore : Bool} {inputs : List Sample}
    {disk : Option SavedState} {files : ℕ → Option Sample} {tr : List (Event τ)} {s : System τ μ}
    (hdisk : OrderlyDir disk files) (hbegin : restore = false → disk = none)
    (hrun : Run (Step cfg) (System.init restore inputs disk files) tr s) :
    IndicesOk s ↔ Undisturbed tr := by
  have hagrees := agrees_iff_undisturbed hdisk.marksOk hrun
  refine ⟨fun h => hagrees.1 h.number, fun htr => ?_⟩
  have hnumber := hagrees.2 htr
  have hok := FilesOk.run (fun saved hsaved => ⟨hdisk.toOutputDir.owned saved hsaved, by
    cases restore
    · rw [hbegin rfl] at hsaved
      cases hsaved
    · rfl⟩) hrun
  have hdistinct : ∀ o o' n n' i, s.created o n i → s.created o' n' i → o = o' := by
    intro o o' n n' i ho ho'
    obtain ⟨x, hx⟩ := ho.owns
    obtain ⟨x', hx'⟩ := ho'.owns
    have hn : n' = n := (hnumber o' n' i ho').symm.trans (hnumber o n i ho)
    rw [hn] at hx'
    exact hok.owned.alone o o' n x x' hx hx'
  refine ⟨hnumber, hdistinct, fun e e' entry entry' he he' hne hpriority => ?_⟩
  have hindex : entry.sampleIndex ≠ entry'.sampleIndex := by
    intro heq
    exact hne (Sum.inl.inj (hdistinct (.inl e) (.inl e') _ _ entry.sampleIndex
      ⟨entry, he, rfl, rfl⟩ ⟨entry', he', rfl, heq.symm⟩))
  rw [cmpEntryPtrs, cmpEntryPtrs, if_pos hpriority, if_pos hpriority.symm, decide_eq_true_iff,
    decide_eq_false_iff_not]
  omega

/-- A thread that is about to number its sample does so: it gets the counter's number and
the counter goes up, and nothing else changes.  -/
theorem exists_number (cfg : Config μ) {s : System τ μ} {t : τ} {savingFor : SavingFor}
    {sample : Sample} (ht : (s.threads t).pc = .saving savingFor sample .number) :
    ∃ s', Step cfg s (.numbered t s.shared.numSamples) s' ∧
      (s'.threads t).pc = .saving savingFor sample (.create s.shared.numSamples) ∧
      (∀ u, t ≠ u → s'.threads u = s.threads u) ∧
      s'.shared.numSamples = s.shared.numSamples + 1 ∧
      s'.shared.allEntries = s.shared.allEntries :=
  ⟨_, Step.number ht, congrArg Thread.pc (s.setThread_self t _),
    fun _ hu => (Step.number ht : Step cfg s _ _).thread_eq hu, rfl, rfl⟩

/-- A thread that is about to create its entry does so. -/
theorem exists_create (cfg : Config μ) {s : System τ μ} {t : τ} {savingFor : SavingFor}
    {sample : Sample} {n : ℕ} (ht : (s.threads t).pc = .saving savingFor sample (.create n)) :
    ∃ s', Step cfg s (.moved t) s' ∧
      (s'.threads t).pc = .saving savingFor sample (.push n (s.shared.numSamples - 1)) ∧
      (∀ u, t ≠ u → s'.threads u = s.threads u) ∧ s'.shared = s.shared :=
  ⟨_, Step.create ht, congrArg Thread.pc (s.setThread_self t _),
    fun _ hu => (Step.create ht : Step cfg s _ _).thread_eq hu, rfl⟩

/-- A thread that is about to publish its entry does so. -/
theorem exists_push (cfg : Config μ) {s : System τ μ} {t : τ} {savingFor : SavingFor}
    {sample : Sample} {n i : ℕ} (ht : (s.threads t).pc = .saving savingFor sample (.push n i)) :
    ∃ event s', Step cfg s event s' ∧ (∀ u, t ≠ u → s'.threads u = s.threads u) ∧
      s'.shared.allEntries = s.shared.allEntries ++ [newEntry sample n i] :=
  ⟨_, _, Step.push ht, fun _ hu => (Step.push ht : Step cfg s _ _).thread_eq hu, rfl⟩

/-- **Two threads that are about to number their samples** can always get one index: both
take their numbers before either reads `num_samples` again, and then both entries have the
later one.  -/
theorem run_overlap {cfg : Config μ} {s : System τ μ} {t u : τ} (htu : t ≠ u)
    {savingFor savingFor' : SavingFor} {sample sample' : Sample}
    (ht : (s.threads t).pc = .saving savingFor sample .number)
    (hu : (s.threads u).pc = .saving savingFor' sample' .number) :
    ∃ tr s', Run (Step cfg) s tr s' ∧ s'.shared.allEntries = s.shared.allEntries ++
      [newEntry sample s.shared.numSamples (s.shared.numSamples + 1),
        newEntry sample' (s.shared.numSamples + 1) (s.shared.numSamples + 1)] := by
  obtain ⟨s₁, h₁, ht₁, hrest₁, hnum₁, hentries₁⟩ := exists_number cfg ht
  obtain ⟨s₂, h₂, hu₂, hrest₂, hnum₂, hentries₂⟩ :=
    exists_number cfg ((congrArg Thread.pc (hrest₁ u htu)).trans hu)
  obtain ⟨s₃, h₃, ht₃, hrest₃, hshared₃⟩ :=
    exists_create cfg ((congrArg Thread.pc (hrest₂ t htu.symm)).trans ht₁)
  obtain ⟨s₄, h₄, hu₄, hrest₄, hshared₄⟩ :=
    exists_create cfg ((congrArg Thread.pc (hrest₃ u htu)).trans hu₂)
  obtain ⟨e₅, s₅, h₅, hrest₅, hentries₅⟩ :=
    exists_push cfg ((congrArg Thread.pc (hrest₄ t htu.symm)).trans ht₃)
  obtain ⟨e₆, s₆, h₆, -, hentries₆⟩ :=
    exists_push cfg ((congrArg Thread.pc (hrest₅ u htu)).trans hu₄)
  refine ⟨_, s₆, .cons h₁ (.cons h₂ (.cons h₃ (.cons h₄ (.cons h₅ (.single h₆))))), ?_⟩
  rw [hentries₆, hentries₅, hshared₄, hshared₃, hentries₂, hentries₁, hnum₂, hnum₁]
  simp

end

section

attribute [local instance] listTinyInst

/-- A second input file, with the content `B`. -/
def secondInput : Sample := Sample.init [66]

/-- Two threads process two inputs, and both are about to save them: each has got its job,
run it, been credited for what was new and reported it, and nothing is numbered yet.  -/
theorem run_saving : ∃ (tr : List (Event Bool)) (s : System Bool SimpleTrimmerContext)
    (savingFor savingFor' : SavingFor),
    Run (Step sessionConfig) (System.init false [sessionInput, secondInput] none fun _ => none) tr s ∧
    (s.threads false).pc = .saving savingFor sessionInput .number ∧
    (s.threads true).pc = .saving savingFor' secondInput .number ∧
    s.shared.allEntries = [] ∧ s.shared.numSamples = 0 :=
  ⟨_, _, _, _, Run.cons (Step.getJob (t := false) (chosen false []) rfl rfl)
    (Run.cons (Step.thread (t := false) (.process rfl rfl))
    (Run.cons (Step.thread (t := false) (.firstRun (reaches 1) rfl))
    (Run.cons (Step.interesting (t := false) rfl rfl)
    (Run.cons (Step.thread (t := false) (.report rfl))
    (Run.cons (Step.getJob (t := true) (chosen false []) rfl rfl)
    (Run.cons (Step.thread (t := true) (.process rfl rfl))
    (Run.cons (Step.thread (t := true) (.firstRun (reaches 2) rfl))
    (Run.cons (Step.interesting (t := true) rfl rfl)
    (Run.single (Step.thread (t := true) (.report rfl))))))))))), rfl, rfl, rfl, rfl⟩

/-- They get one index. -/
theorem run_clash : ∃ (tr : List (Event Bool)) (s : System Bool SimpleTrimmerContext),
    Run (Step sessionConfig) (System.init false [sessionInput, secondInput] none fun _ => none) tr s ∧
    s.shared.allEntries = [newEntry sessionInput 0 1, newEntry secondInput 1 1] := by
  obtain ⟨tr, s, savingFor, savingFor', hrun, ht, hu, hnil, hzero⟩ := run_saving
  obtain ⟨tr', s', hrun', hentries⟩ := run_overlap (by decide) ht hu
  rw [hnil, hzero] at hentries
  exact ⟨_, s', hrun.trans hrun', hentries⟩

/-- Two entries with the same index cannot both have the right one.  -/
theorem not_indicesOk_of_clash {s : System τ μ} {sample sample' : Sample}
    (h : s.shared.allEntries = [newEntry sample 0 1, newEntry sample' 1 1]) : ¬ IndicesOk s := by
  intro hok
  have hsame := hok.distinct (.inl 0) (.inl 1) 0 1 1
    ⟨newEntry sample 0 1, by rw [h]; rfl, rfl, rfl⟩
    ⟨newEntry sample' 1 1, by rw [h]; rfl, rfl, rfl⟩
  cases hsame

/-- **Two entries with one index.** Two threads take their numbers one after the other, and
then both read `num_samples` for the index of their entries, which is no longer what it was
for the first of them.  -/
theorem sample_indices_clash : ¬ ∀ (tr : List (Event Bool)) (s : System Bool SimpleTrimmerContext),
    Run (Step sessionConfig) (System.init false [sessionInput, secondInput] none fun _ => none) tr s →
      IndicesOk s := by
  intro h
  obtain ⟨tr, s, hrun, hentries⟩ := run_clash
  exact not_indicesOk_of_clash hentries (h tr s hrun)

/-- **Two threads in the window.** Both have a file before either of them reads the counter
again, so both read the same index, and the entry that belongs to the first file gets the
index of the second.  -/
theorem sample_indices_iff_clash : ∃ (tr : List (Event Bool)) (s : System Bool SimpleTrimmerContext),
    Run (Step sessionConfig) (System.init false [sessionInput, secondInput] none fun _ => none) tr s ∧
    s.shared.allEntries = [newEntry sessionInput 0 1, newEntry secondInput 1 1] ∧
    ¬ Undisturbed tr := by
  obtain ⟨tr, s, hrun, hentries⟩ := run_clash
  refine ⟨tr, s, hrun, hentries, fun htr => ?_⟩
  exact not_indicesOk_of_clash hentries ((sample_indices_iff (.fresh _) (fun _ => rfl) hrun).2 htr)

end

end Fuzzer
end Jackalope
