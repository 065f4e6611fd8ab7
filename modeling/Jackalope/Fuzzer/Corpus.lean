/-
# Where the entries are

`sample_queue` holds pointers to entries whose keys the fuzzing threads change
outside `queue_mutex`.  That this is all right rests on ownership: a thread changes
only the entry of its own FUZZ job, and that entry was popped from the queue.
`Conserved` says so for the shared state, given how many threads hold each entry,
and each operation on the corpus keeps it.  `entries_conserved` is the result for
sessions: an entry is in the queue once, or in one FUZZ job, or discarded.

A session may restore what an earlier session saved.  `Disk` lists what can be
found in the output directory: what sessions left there, with any options and any
number of threads each.
-/

import Jackalope.Fuzzer.Jobs
import Mathlib.Data.List.Count

namespace Jackalope
namespace Fuzzer

open Foundation

variable {τ μ : Type}

/-! ### Sessions -/

/-- The first call leaves the phase in which the state is to be restored. -/
theorem synchronizeAndGetJob_restored {cfg : Config μ} {choices : Choices} {f f' : Shared}
    {job : Job} (h : synchronizeAndGetJob cfg choices f = some (f', job)) :
    f'.state ≠ .restoreNeeded := by
  obtain ⟨f₁, f₂, h₁, h₂, h₃⟩ := synchronizeAndGetJob_eq h
  have hf₁ : f₁.state ≠ .restoreNeeded := by
    rcases restoreIfNeeded_eq h₁ with ⟨hne, rfl⟩ | ⟨saved, queue, -, -, -, rfl⟩
    · exact hne
    · exact nofun
  obtain ⟨state, new, last, rfl, -, hstate⟩ := changeState_eq h₂
  rcases createJob_cases h₃ with ⟨-, rfl⟩ | ⟨e, -, -, -, rfl⟩ | ⟨i, file, rest, -, -, -, rfl⟩ |
    ⟨i, sample, rest, -, -, -, rfl⟩ | ⟨-, -, rfl⟩ <;> exact hstate hf₁

/-- `JobDone` does not change the state of the fuzzer; only `SynchronizeAndGetJob` does.  -/
theorem jobDone_state (f : Shared) (job : Job) (discardSample : Bool) :
    (jobDone f job discardSample).state = f.state := by
  cases job with
  | fuzz e => cases discardSample <;> rfl
  | processSample | wait => rfl

section

variable [TinyInst] [DecidableEq τ]

/-- **Before the first call nothing has happened.**  Every thread begins with
`SynchronizeAndGetJob`, and the first to get there restores. -/
theorem nothing_of_restoreNeeded {cfg : Config μ} {restore : Bool} {inputs : List Sample}
    {disk : Option SavedState} {files : ℕ → Option Sample} {tr : List (Event τ)} {s : System τ μ}
    (h : Run (Step cfg) (System.init restore inputs disk files) tr s)
    (hs : s.shared.state = .restoreNeeded) :
    tr = [] ∧ s = System.init restore inputs disk files := by
  refine h.invariant (fun tr s => s.shared.state = .restoreNeeded →
    tr = [] ∧ s = System.init restore inputs disk files) (fun _ => ⟨rfl, rfl⟩) ?_ hs
  intro tr s event s' ih hstep hs'
  rcases hstep.kinds with ⟨t, choices, job, shared, rfl, hpc, hjob, rfl⟩ | ⟨t, rfl, hpc, rfl⟩ | hw
  · exact absurd hs' (synchronizeAndGetJob_restored hjob)
  · rw [(ih ((jobDone_state _ _ _).symm.trans hs')).2] at hpc
    cases hpc
  · have hjob := hw.inJob
    rw [(ih (hw.state.symm.trans hs')).2] at hjob
    cases hjob

/-- **Until the state is restored nothing happens**: the first job is asked for in
`SynchronizeAndGetJob`, which restores before anything else, so a session that has still to
restore is as it began.  -/
theorem eq_init_of_restoreNeeded {cfg : Config μ} {restore : Bool} {inputs : List Sample}
    {disk : Option SavedState} {files : ℕ → Option Sample} {tr : List (Event τ)} {s : System τ μ}
    (h : Run (Step cfg) (System.init restore inputs disk files) tr s)
    (hs : s.shared.state = .restoreNeeded) : s = System.init restore inputs disk files :=
  (nothing_of_restoreNeeded h hs).2

/-- **What can be on disk**: nothing, or what a session left that found what can be
there.  Samples without a `state.dat` may be of anyone. -/
inductive Disk : Option SavedState → (ℕ → Option Sample) → Prop
  | fresh (files) : Disk none files
  | session {τ μ : Type} [Fintype τ] [DecidableEq τ] {disk files restore inputs tr} (cfg : Config μ)
      {s : System τ μ} : Disk disk files →
      Run (Step cfg) (System.init restore inputs disk files) tr s →
      Disk s.shared.stateDat s.shared.sampleFiles

end

/-! ### What becomes of an entry -/

/-- What never changes about an entry. -/
structure SampleQueueEntry.Same (entry entry' : SampleQueueEntry) : Prop where
  sample : entry'.sample = entry.sample
  sampleFilename : entry'.sampleFilename = entry.sampleFilename
  sampleIndex : entry'.sampleIndex = entry.sampleIndex

/-- `FuzzJob` counts a run in its entry; what the entry is about, and whether it was
discarded, it leaves as it is.  -/
theorem recordRun_same (entry : SampleQueueEntry) (result : RunResult) (hasNew : Bool) :
    entry.Same (recordRun entry result hasNew) ∧
      (recordRun entry result hasNew).discarded = entry.discarded := by
  cases result <;> cases hasNew <;> exact ⟨⟨rfl, rfl, rfl⟩, rfl⟩

/-- **The corpus in a call**: it may be restored first, it may be saved as it then is,
and a FUZZ job takes the top of the queue. -/
theorem synchronizeAndGetJob_entries {cfg : Config μ} {choices : Choices} {f f' : Shared}
    {job : Job} (h : synchronizeAndGetJob cfg choices f = some (f', job)) :
    ∃ f₁ : Shared, restoreIfNeeded f = some f₁ ∧ f'.allEntries = f₁.allEntries ∧
      f'.numSamplesDiscarded = f₁.numSamplesDiscarded ∧ f'.stateDat = stateDatAfter choices f₁ ∧
      (((∀ e, job ≠ .fuzz e) ∧ f'.sampleQueue = f₁.sampleQueue) ∨
        ∃ e, job = .fuzz e ∧ f₁.sampleQueue[0]? = some e ∧
          f'.sampleQueue = Heap.pop (keyOf f₁.allEntries) f₁.sampleQueue) := by
  obtain ⟨f₁, f₂, h₁, h₂, h₃⟩ := synchronizeAndGetJob_eq h
  obtain ⟨state, new, last, rfl, -, -⟩ := changeState_eq h₂
  refine ⟨f₁, h₁, ?_⟩
  rcases createJob_cases h₃ with ⟨rfl, rfl⟩ | ⟨e, -, he, rfl, rfl⟩ | ⟨i, file, rest, -, -, rfl, rfl⟩ |
    ⟨i, sample, rest, -, -, rfl, rfl⟩ | ⟨-, rfl, rfl⟩
  · exact ⟨rfl, rfl, rfl, Or.inl ⟨nofun, rfl⟩⟩
  · exact ⟨rfl, rfl, rfl, Or.inr ⟨e, rfl, he, rfl⟩⟩
  · exact ⟨rfl, rfl, rfl, Or.inl ⟨nofun, rfl⟩⟩
  · exact ⟨rfl, rfl, rfl, Or.inl ⟨nofun, rfl⟩⟩
  · exact ⟨rfl, rfl, rfl, Or.inl ⟨nofun, rfl⟩⟩

/-- **What `JobDone` does to the corpus**: nothing for a sample that was processed; for an
entry that was fuzzed it puts it back into the queue, with the priority that it has by then,
or marks it discarded and counts it, and then it is in no queue again.  -/
theorem jobDone_entries (f : Shared) (job : Job) (discardSample : Bool) :
    (jobDone f job discardSample).stateDat = f.stateDat ∧
    (((jobDone f job discardSample).allEntries = f.allEntries ∧
        (jobDone f job discardSample).numSamplesDiscarded = f.numSamplesDiscarded ∧
        (((∀ e, job ≠ .fuzz e) ∧ (jobDone f job discardSample).sampleQueue = f.sampleQueue) ∨
          ∃ e, job = .fuzz e ∧
            (jobDone f job discardSample).sampleQueue =
              Heap.push (keyOf f.allEntries) f.sampleQueue e)) ∨
      ∃ e, job = .fuzz e ∧
        (jobDone f job discardSample).allEntries =
          f.allEntries.modify e (fun entry => { entry with discarded := 1 }) ∧
        (jobDone f job discardSample).numSamplesDiscarded = f.numSamplesDiscarded + 1 ∧
        (jobDone f job discardSample).sampleQueue = f.sampleQueue) := by
  cases job with
  | processSample origin sample => exact ⟨rfl, Or.inl ⟨rfl, rfl, Or.inl ⟨nofun, rfl⟩⟩⟩
  | wait => exact ⟨rfl, Or.inl ⟨rfl, rfl, Or.inl ⟨nofun, rfl⟩⟩⟩
  | fuzz e =>
      cases discardSample
      · exact ⟨rfl, Or.inl ⟨rfl, rfl, Or.inr ⟨e, rfl, rfl⟩⟩⟩
      · exact ⟨rfl, Or.inr ⟨e, rfl, rfl, rfl, rfl⟩⟩

section

variable [TinyInst] [DecidableEq τ]

/-- The three ways in which work touches the corpus: not at all, `SaveSample` pushes
an entry, and `FuzzJob` changes the entry of its job. -/
theorem Step.entries_works {cfg : Config μ} {s s' : System τ μ} {event : Event τ}
    (h : Step cfg s event s') (hw : Works s event s') :
    (s'.shared.allEntries = s.shared.allEntries ∧ s'.shared.sampleQueue = s.shared.sampleQueue) ∨
    (∃ t job sample fileindex sampleIndex,
      event = .pushed t job s.shared.allEntries.length sample ∧
      s'.shared = pushEntry s.shared (newEntry sample fileindex sampleIndex)) ∨
    ∃ t e entry result hasNew, (s.threads t).pc.inJob = true ∧ (s.threads t).job = .fuzz e ∧
      s.shared.allEntries[e]? = some entry ∧
      s'.shared.allEntries = s.shared.allEntries.set e (recordRun entry result hasNew) ∧
      s'.shared.sampleQueue = s.shared.sampleQueue := by
  cases h with
  | thread | interesting | number | create => exact Or.inl ⟨rfl, rfl⟩
  | push => exact Or.inr (Or.inl ⟨_, _, _, _, _, rfl, rfl⟩)
  | adjust hpc hjob he => exact Or.inr (Or.inr ⟨_, _, _, _, _, by rw [hpc]; rfl, hjob, he, rfl, rfl⟩)
  | getJob => exact absurd hw.noJob nofun
  | done => exact absurd rfl (hw.notDone _ _)

/-- **What becomes of an entry in one step**, under its name: nothing, or it is
discarded, or the thread that has it in its job records a run. -/
theorem Step.entry_eq {cfg : Config μ} {restore : Bool} {inputs : List Sample}
    {disk : Option SavedState} {files : ℕ → Option Sample} {tr : List (Event τ)}
    {s s' : System τ μ} {event : Event τ} (h : Step cfg s event s')
    (hrun : Run (Step cfg) (System.init restore inputs disk files) tr s)
    {e : ℕ} {entry : SampleQueueEntry} (he : s.shared.allEntries[e]? = some entry) :
    ∃ entry', s'.shared.allEntries[e]? = some entry' ∧
      (entry' = entry ∨ entry' = { entry with discarded := 1 } ∨
        ∃ t result hasNew, (s.threads t).pc.inJob = true ∧ (s.threads t).job = .fuzz e ∧
          entry' = recordRun entry result hasNew) := by
  rcases h.kinds with ⟨t, choices, job, shared, rfl, hpc, hjob, rfl⟩ | ⟨t, rfl, hpc, rfl⟩ | hw
  · obtain ⟨f₁, h₁, hentries, -⟩ := synchronizeAndGetJob_entries hjob
    rcases restoreIfNeeded_eq h₁ with ⟨-, rfl⟩ | ⟨saved, queue, hs, -⟩
    · exact ⟨entry, (congrArg (·[e]?) hentries).trans he, Or.inl rfl⟩
    · rw [eq_init_of_restoreNeeded hrun hs] at he
      cases he
  · obtain ⟨-, ⟨hentries, -⟩ | ⟨e', -, hentries, -⟩⟩ :=
      jobDone_entries s.shared (s.threads t).job (s.threads t).discardSample
    · exact ⟨entry, (congrArg (·[e]?) hentries).trans he, Or.inl rfl⟩
    · refine ⟨if e' = e then { entry with discarded := 1 } else entry,
        (congrArg (·[e]?) hentries).trans ?_, ?_⟩
      · rw [List.getElem?_modify, he]
        split <;> rfl
      · split
        · exact Or.inr (Or.inl rfl)
        · exact Or.inl rfl
  · rcases h.entries_works hw with ⟨hentries, -⟩ | ⟨t, job, sample, i, j, -, hs⟩ |
      ⟨t, e', entry', result, hasNew, hin, hjob, he', hentries, -⟩
    · exact ⟨entry, hentries ▸ he, Or.inl rfl⟩
    · rw [hs]
      exact ⟨entry, List.getElem?_append_left (List.getElem?_eq_some_iff.1 he).1 ▸ he, Or.inl rfl⟩
    · rw [hentries, List.getElem?_set]
      split
      · rename_i heq
        subst heq
        cases he.symm.trans he'
        rw [if_pos (List.getElem?_eq_some_iff.1 he).1]
        exact ⟨_, rfl, Or.inr (Or.inr ⟨t, result, hasNew, hin, hjob, rfl⟩)⟩
      · exact ⟨entry, he, Or.inl rfl⟩

/-- An entry keeps its sample, its file and its index, whatever is done to its counters, its
priority and its mark.  -/
theorem Step.entries_kept {cfg : Config μ} {restore : Bool} {inputs : List Sample}
    {disk : Option SavedState} {files : ℕ → Option Sample} {tr : List (Event τ)}
    {s s' : System τ μ} {event : Event τ} (h : Step cfg s event s')
    (hrun : Run (Step cfg) (System.init restore inputs disk files) tr s)
    {e : ℕ} {entry : SampleQueueEntry} (he : s.shared.allEntries[e]? = some entry) :
    ∃ entry', s'.shared.allEntries[e]? = some entry' ∧ entry.Same entry' := by
  obtain ⟨entry', he', rfl | rfl | ⟨t, result, hasNew, -, -, rfl⟩⟩ := h.entry_eq hrun he
  · exact ⟨_, he', rfl, rfl, rfl⟩
  · exact ⟨_, he', rfl, rfl, rfl⟩
  · exact ⟨_, he', (recordRun_same entry result hasNew).1⟩

end

/-! ### Conservation -/

/-- **Every entry has one place**, given how many threads hold it: it is in the
queue, or held, or discarded, and in nothing else and not twice.  The names in the
queue and in jobs are names of entries, and the queue is ordered by the keys that
its entries have now. -/
structure Conserved (held : ℕ → ℕ) (entries : List SampleQueueEntry) (queue : Array ℕ) : Prop where
  place : ∀ e entry, entries[e]? = some entry →
    queue.toList.count e + held e + entry.discarded = 1
  known : ∀ e, entries[e]? = none → queue.toList.count e + held e = 0
  ordered : Heap.Ordered (keyOf entries) queue

/-- An element of the queue is an entry that is not held and not discarded. -/
theorem Conserved.of_mem {held : ℕ → ℕ} {entries : List SampleQueueEntry} {queue : Array ℕ}
    (h : Conserved held entries queue) {e : ℕ} (he : e ∈ queue) :
    held e = 0 ∧ ∃ entry, entries[e]? = some entry ∧ entry.discarded = 0 := by
  have hpos : 0 < queue.toList.count e := List.count_pos_iff.2 (Array.mem_toList_iff.2 he)
  rcases hentry : entries[e]? with _ | entry
  · have := h.known e hentry
    omega
  · have := h.place e entry hentry
    exact ⟨by omega, entry, rfl, by omega⟩

/-- A held entry is an entry that is not discarded, and it is held once. -/
theorem Conserved.of_held {held : ℕ → ℕ} {entries : List SampleQueueEntry} {queue : Array ℕ}
    (h : Conserved held entries queue) {e : ℕ} (he : 0 < held e) :
    e ∉ queue ∧ held e = 1 ∧ ∃ entry, entries[e]? = some entry ∧ entry.discarded = 0 := by
  rcases hentry : entries[e]? with _ | entry
  · have := h.known e hentry
    omega
  · have := h.place e entry hentry
    refine ⟨fun hmem => ?_, by omega, entry, rfl, by omega⟩
    have := (h.of_mem hmem).1
    omega

/-- Only how many threads hold each entry matters, not which.  -/
theorem Conserved.congr {held held' : ℕ → ℕ} {entries : List SampleQueueEntry} {queue : Array ℕ}
    (h : Conserved held entries queue) (hheld : ∀ e, held' e = held e) :
    Conserved held' entries queue := by
  obtain rfl : held' = held := funext hheld
  exact h

/-- The count of one name in the queue after a push. -/
theorem count_push (key : ℕ → ℤ ×ₗ ℕ) (queue : Array ℕ) (x e : ℕ) :
    (Heap.push key queue x).toList.count e = queue.toList.count e + if x = e then 1 else 0 := by
  rw [(Heap.push_perm key queue x).count_eq, List.count_cons]
  simp

/-- The count of one name in the queue after a pop. -/
theorem count_pop {key : ℕ → ℤ ×ₗ ℕ} {queue : Array ℕ} {x : ℕ} (h : queue[0]? = some x) (e : ℕ) :
    (Heap.pop key queue).toList.count e + (if x = e then 1 else 0) = queue.toList.count e := by
  rw [(Heap.pop_perm key h).count_eq, List.count_cons]
  simp

/-- A thread takes the top of the queue: the entry has one place less in the queue, and one
more with the thread.  -/
theorem Conserved.pop {held held' : ℕ → ℕ} {entries : List SampleQueueEntry} {queue : Array ℕ}
    (h : Conserved held entries queue) {x : ℕ} (hx : queue[0]? = some x)
    (hheld : ∀ e, held' e = held e + if x = e then 1 else 0) :
    Conserved held' entries (Heap.pop (keyOf entries) queue) := by
  refine ⟨fun e entry he => ?_, fun e he => ?_, Heap.pop_ordered h.ordered⟩
  · have h₁ := h.place e entry he
    have h₂ := @count_pop (keyOf entries) _ _ hx e
    have h₃ := hheld e
    omega
  · have h₁ := h.known e he
    have h₂ := @count_pop (keyOf entries) _ _ hx e
    have h₃ := hheld e
    omega

/-- A thread gives its entry back: the entry has one place less with the thread, and one
more in the queue.  -/
theorem Conserved.push {held held' : ℕ → ℕ} {entries : List SampleQueueEntry} {queue : Array ℕ}
    (h : Conserved held entries queue) {x : ℕ}
    (hheld : ∀ e, held' e + (if x = e then 1 else 0) = held e) :
    Conserved held' entries (Heap.push (keyOf entries) queue x) := by
  refine ⟨fun e entry he => ?_, fun e he => ?_, Heap.push_ordered h.ordered x⟩
  · have h₁ := h.place e entry he
    have h₂ := count_push (keyOf entries) queue x e
    have h₃ := hheld e
    omega
  · have h₁ := h.known e he
    have h₂ := count_push (keyOf entries) queue x e
    have h₃ := hheld e
    omega

/-- A thread changes an entry that it holds; as the entry is not in the queue, the
queue stays ordered. -/
theorem Conserved.set {held held' : ℕ → ℕ} {entries entries' : List SampleQueueEntry}
    {queue : Array ℕ} (h : Conserved held entries queue) {x : ℕ} (hx : 0 < held x)
    (hother : ∀ e, x ≠ e → entries'[e]? = entries[e]? ∧ held' e = held e)
    (hself : ∃ entry', entries'[x]? = some entry' ∧ held' x + entry'.discarded = 1) :
    Conserved held' entries' queue := by
  obtain ⟨hmem, hheld, entry, hentry, hdisc⟩ := h.of_held hx
  obtain ⟨entry', hentry', hplace⟩ := hself
  have hcount : queue.toList.count x = 0 :=
    List.count_eq_zero.2 fun hc => hmem (Array.mem_toList_iff.1 hc)
  refine ⟨fun e f he => ?_, fun e he => ?_, ?_⟩
  · by_cases hxe : x = e
    · subst hxe
      cases hentry'.symm.trans he
      omega
    · rw [(hother e hxe).2]
      exact h.place e f ((hother e hxe).1 ▸ he)
  · by_cases hxe : x = e
    · subst hxe
      cases hentry'.symm.trans he
    · rw [(hother e hxe).2]
      exact h.known e ((hother e hxe).1 ▸ he)
  · refine h.ordered.congr fun e he => ?_
    rw [keyOf, keyOf, (hother e fun hxe => hmem (hxe ▸ he)).1]

/-- A new entry, in the queue unless it is discarded: an index that no thread has and that
was not in the queue gets its one place.  -/
theorem Conserved.append {held : ℕ → ℕ} {entries : List SampleQueueEntry} {queue queue' : Array ℕ}
    (h : Conserved held entries queue) {entry : SampleQueueEntry}
    (hqueue : (entry.discarded = 0 ∧
        queue' = Heap.push (keyOf (entries ++ [entry])) queue entries.length) ∨
      (entry.discarded = 1 ∧ queue' = queue)) :
    Conserved held (entries ++ [entry]) queue' := by
  have hnew := h.known entries.length (List.getElem?_eq_none le_rfl)
  -- the names in the queue are older, so their keys are as before
  have hord : Heap.Ordered (keyOf (entries ++ [entry])) queue := by
    refine h.ordered.congr fun e he => ?_
    obtain ⟨-, f, hf, -⟩ := h.of_mem he
    rw [keyOf, keyOf, List.getElem?_append_left (List.getElem?_eq_some_iff.1 hf).1]
  have hcount : ∀ e, queue'.toList.count e + (if entries.length = e then entry.discarded else 0) =
      queue.toList.count e + if entries.length = e then 1 else 0 := by
    intro e
    rcases hqueue with ⟨hd, rfl⟩ | ⟨hd, rfl⟩
    · rw [count_push, hd]
      simp
    · rw [hd]
  refine ⟨fun e f he => ?_, fun e he => ?_, ?_⟩
  · have hc := hcount e
    rcases Nat.lt_trichotomy e entries.length with hlt | rfl | hgt
    · rw [if_neg (by omega), if_neg (by omega)] at hc
      rw [List.getElem?_append_left hlt] at he
      have := h.place e f he
      omega
    · rw [List.getElem?_concat_length] at he
      cases he
      rw [if_pos rfl, if_pos rfl] at hc
      omega
    · rw [List.getElem?_eq_none (by rw [List.length_append, List.length_singleton]; omega)] at he
      cases he
  · have hlen := List.getElem?_eq_none_iff.1 he
    rw [List.length_append, List.length_singleton] at hlen
    have hc := hcount e
    rw [if_neg (by omega), if_neg (by omega)] at hc
    have := h.known e (List.getElem?_eq_none (by omega))
    omega
  · rcases hqueue with ⟨-, rfl⟩ | ⟨-, rfl⟩
    · exact Heap.push_ordered hord _
    · exact hord

/-- **Restoring.** If each saved entry is discarded or not, every restored entry has one
place: those that were discarded stay so, and all the others are in the queue again, also
those that a thread had when the state was saved.  -/
theorem Conserved.restore {entries : List SampleQueueEntry} (hd : ∀ entry ∈ entries, entry.discarded ≤ 1)
    {f : Shared} (h : Conserved (fun _ => 0) f.allEntries f.sampleQueue) :
    Conserved (fun _ => 0) (entries.foldl restoreEntry f).allEntries
      (entries.foldl restoreEntry f).sampleQueue := by
  induction entries generalizing f with
  | nil => exact h
  | cons entry entries ih =>
      refine ih (fun e he => hd e (List.mem_cons_of_mem _ he)) ?_
      have hle := hd entry List.mem_cons_self
      unfold restoreEntry
      dsimp only
      split
      · rename_i h0
        exact h.append (Or.inl ⟨h0, rfl⟩)
      · exact h.append (Or.inr ⟨by dsimp only; omega, rfl⟩)

/-! ### Over sessions -/

/-- Whether a thread has the FUZZ job of the entry. -/
def Thread.holds (e : ℕ) (th : Thread μ) : Bool := th.pc.inJob && decide (th.job = .fuzz e)

/-- A thread holds an entry from the section that hands it out to the one that takes it
back.  -/
theorem Thread.holds_iff {e : ℕ} {th : Thread μ} :
    th.holds e = true ↔ th.pc.inJob = true ∧ th.job = .fuzz e := by
  simp [Thread.holds]

/-- The number of discarded entries. -/
def discardedEntries (entries : List SampleQueueEntry) : ℕ :=
  entries.countP fun entry => decide (entry.discarded = 1)

/-- Changing an entry that is not discarded counts it if it is then, so the counter of
discarded entries goes up with the mark.  -/
theorem discardedEntries_set {entries : List SampleQueueEntry} {e : ℕ}
    {entry : SampleQueueEntry} (h : entries[e]? = some entry) (h0 : entry.discarded = 0)
    (entry' : SampleQueueEntry) :
    discardedEntries (entries.set e entry') =
      discardedEntries entries + if entry'.discarded = 1 then 1 else 0 := by
  obtain ⟨hlt, hget⟩ := List.getElem?_eq_some_iff.1 h
  rw [discardedEntries, discardedEntries, List.countP_set hlt, hget, h0]
  simp

/-- What was saved counts its discarded entries. -/
def SavedState.Counts (saved : SavedState) : Prop :=
  (∀ entry ∈ saved.entries, entry.discarded ≤ 1) ∧
    saved.numSamplesDiscarded = discardedEntries saved.entries

/-- Restoring puts the corpus in order: the entries are those of `state.dat`, nobody has
one, the counter of discarded entries is right, and the file on disk is what was read.  -/
theorem Conserved.restoreIfNeeded {restore : Bool} {inputs : List Sample}
    {disk : Option SavedState} {files : ℕ → Option Sample} {f : Shared}
    (hs : (System.init restore inputs disk files : System τ μ).shared.state = .restoreNeeded)
    (hdisk : ∀ saved, disk = some saved → saved.Counts)
    (hf : restoreIfNeeded (System.init restore inputs disk files : System τ μ).shared = some f) :
    Conserved (fun _ => 0) f.allEntries f.sampleQueue ∧
      f.numSamplesDiscarded = discardedEntries f.allEntries ∧ f.stateDat = disk := by
  rcases restoreIfNeeded_eq hf with ⟨hne, -⟩ | ⟨saved, queue, -, hsaved, hqueue, rfl⟩
  · exact absurd hs hne
  · obtain ⟨hd, hcount⟩ := hdisk saved hsaved
    refine ⟨?_, ?_, rfl⟩
    · have h := Conserved.restore hd (f := { (System.init restore inputs disk files : System τ μ).shared with
        numSamples := saved.numSamples
        numSamplesDiscarded := saved.numSamplesDiscarded
        fuzzerCoverage := saved.fuzzerCoverage }) ⟨nofun, fun e _ => rfl, fun i hi => le_rfl⟩
      obtain ⟨queue', hq⟩ := foldl_restoreEntry_eq saved.entries
        { (System.init restore inputs disk files : System τ μ).shared with
          numSamples := saved.numSamples
          numSamplesDiscarded := saved.numSamplesDiscarded
          fuzzerCoverage := saved.fuzzerCoverage }
      rw [hqueue] at h
      rw [hq] at h
      exact h
    · show saved.numSamplesDiscarded = discardedEntries ([] ++ saved.entries.map (loadEntry files))
      rw [hcount, discardedEntries, discardedEntries, List.nil_append, List.countP_map]
      rfl

section

variable [Fintype τ]

/-- **The corpus is in order**, in a session and in what it saved last. -/
structure CorpusOk (s : System τ μ) : Prop where
  conserved : Conserved (fun e => countThreads (Thread.holds e) s) s.shared.allEntries
    s.shared.sampleQueue
  counted : s.shared.numSamplesDiscarded = discardedEntries s.shared.allEntries
  saved : ∀ saved, s.shared.stateDat = some saved → saved.Counts

/-- The numbers that `SaveState` writes next to the entries are right: how many samples
there are, and how many of them were discarded.  -/
theorem CorpusOk.counts {s : System τ μ} (h : CorpusOk s) : (savedOf s.shared).Counts := by
  refine ⟨fun entry hentry => ?_, h.counted⟩
  obtain ⟨e, he⟩ := List.mem_iff_getElem?.1 hentry
  have := h.conserved.place e entry he
  omega

variable [DecidableEq τ]

/-- How many threads hold an entry after a thread without one got a job, or one with
a job is done with it. -/
theorem countThreads_holds (s : System τ μ) (t : τ) (th : Thread μ) (e : ℕ) :
    countThreads (Thread.holds e) (s.setThread t th) + (if (s.threads t).holds e then 1 else 0) =
      countThreads (Thread.holds e) s + if th.holds e then 1 else 0 := by
  have h := countThreads_setThread (Thread.holds e) s t th
  cases h₁ : (s.threads t).holds e <;> cases h₂ : th.holds e <;> simpa [h₁, h₂] using h

variable [TinyInst]

/-- The corpus that a call works on, after restoring if that is due: `SynchronizeAndGetJob`
may rely on the order of the corpus in either case.  -/
theorem CorpusOk.restoreIfNeeded {cfg : Config μ} {restore : Bool} {inputs : List Sample}
    {disk : Option SavedState} {files : ℕ → Option Sample} {tr : List (Event τ)} {s : System τ μ}
    (hrun : Run (Step cfg) (System.init restore inputs disk files) tr s) (hok : CorpusOk s)
    {f : Shared} (hf : restoreIfNeeded s.shared = some f) :
    CorpusOk { s with shared := f } := by
  by_cases hs : s.shared.state = .restoreNeeded
  · obtain rfl := eq_init_of_restoreNeeded hrun hs
    obtain ⟨hc, hn, hd⟩ := Conserved.restoreIfNeeded hs hok.saved hf
    refine ⟨hc.congr fun e => countThreads_eq_zero.2 fun t => rfl, hn, ?_⟩
    intro saved hsaved
    exact hok.saved saved (hd ▸ hsaved)
  · rcases restoreIfNeeded_eq hf with ⟨-, rfl⟩ | ⟨saved, queue, hs', -⟩
    · exact hok
    · exact absurd hs' hs

/-- A call keeps the corpus in order: the thread takes the top of the queue, or nothing.
The entry it takes had its place in the queue and has its place with the thread from now on.
-/
theorem CorpusOk.call {cfg : Config μ} {restore : Bool} {inputs : List Sample}
    {disk : Option SavedState} {files : ℕ → Option Sample} {tr : List (Event τ)} {s : System τ μ}
    (hrun : Run (Step cfg) (System.init restore inputs disk files) tr s) (hok : CorpusOk s) {t : τ}
    {choices : Choices} {job : Job} {shared : Shared} (hpc : (s.threads t).pc = .synchronize)
    (hjob : synchronizeAndGetJob cfg choices s.shared = some (shared, job)) :
    CorpusOk { s.setThread t { s.threads t with
      pc := .working, job := job, discardSample := false } with shared := shared } := by
  obtain ⟨f, hf, hentries, hnum, hdat, hqueue⟩ := synchronizeAndGetJob_entries hjob
  have hf' := hok.restoreIfNeeded hrun hf
  have hheld : ∀ e, countThreads (Thread.holds e) (s.setThread t { s.threads t with
      pc := .working, job := job, discardSample := false }) =
        countThreads (Thread.holds e) s + if job = .fuzz e then 1 else 0 := by
    intro e
    have hcount := countThreads_holds s t { s.threads t with
      pc := .working, job := job, discardSample := false } e
    have hbefore : (s.threads t).holds e = false := by rw [Thread.holds, hpc]; rfl
    rw [hbefore] at hcount
    simpa [Thread.holds, Pc.inJob] using hcount
  refine ⟨?_, ?_, ?_⟩
  · show Conserved (fun e => countThreads (Thread.holds e) (s.setThread t _)) shared.allEntries
      shared.sampleQueue
    rw [hentries]
    rcases hqueue with ⟨hne, hqueue⟩ | ⟨x, rfl, htop, hqueue⟩ <;> rw [hqueue]
    · exact hf'.conserved.congr fun e => (hheld e).trans (by rw [if_neg (hne e)]; rfl)
    · exact hf'.conserved.pop htop fun e => (hheld e).trans (by simp only [Job.fuzz.injEq]; rfl)
  · show shared.numSamplesDiscarded = discardedEntries shared.allEntries
    rw [hnum, hentries]
    exact hf'.counted
  · intro saved hsaved
    rw [show _ = _ from hdat] at hsaved
    unfold stateDatAfter at hsaved
    split at hsaved
    · cases hsaved
      exact hf'.counts
    · exact hf'.saved saved hsaved

omit [TinyInst] in
/-- `JobDone` keeps the corpus in order: the thread gives its entry back, or discards it.
In either case the place it had with the thread is exchanged for one in the queue or among
the discarded ones.  -/
theorem CorpusOk.done {s : System τ μ} (hok : CorpusOk s) {t : τ}
    (hpc : (s.threads t).pc = .jobDone) :
    CorpusOk { s.setThread t { s.threads t with pc := .synchronize } with
      shared := jobDone s.shared (s.threads t).job (s.threads t).discardSample } := by
  obtain ⟨hdat, hdone⟩ := jobDone_entries s.shared (s.threads t).job (s.threads t).discardSample
  have hheld : ∀ e, countThreads (Thread.holds e) (s.setThread t { s.threads t with
      pc := .synchronize }) + (if (s.threads t).job = .fuzz e then 1 else 0) =
        countThreads (Thread.holds e) s := by
    intro e
    have hcount := countThreads_holds s t { s.threads t with pc := .synchronize } e
    have hbefore : (s.threads t).holds e = decide ((s.threads t).job = .fuzz e) := by
      rw [Thread.holds, hpc]
      rfl
    rw [hbefore] at hcount
    simpa [Thread.holds, Pc.inJob] using hcount
  refine ⟨?_, ?_, fun saved hsaved => hok.saved saved (hdat ▸ hsaved)⟩
  · show Conserved (fun e => countThreads (Thread.holds e) (s.setThread t _))
      (jobDone s.shared (s.threads t).job (s.threads t).discardSample).allEntries
      (jobDone s.shared (s.threads t).job (s.threads t).discardSample).sampleQueue
    rcases hdone with ⟨hentries, -, ⟨hne, hqueue⟩ | ⟨x, hx, hqueue⟩⟩ | ⟨x, hx, hentries, -, hqueue⟩ <;>
      rw [hentries, hqueue]
    · exact hok.conserved.congr fun e => by simpa [hne e] using hheld e
    · exact hok.conserved.push fun e => by simpa [hx] using hheld e
    · have hpos : 0 < countThreads (Thread.holds x) s := by
        have := hheld x
        rw [if_pos hx] at this
        omega
      obtain ⟨-, hone, entry, hentry, hdisc⟩ := hok.conserved.of_held hpos
      refine hok.conserved.set hpos (fun e hxe => ⟨?_, ?_⟩) ⟨{ entry with discarded := 1 }, ?_, ?_⟩
      · simp [hxe]
      · simpa [hx, hxe] using hheld e
      · simp [hentry]
      · have := hheld x
        rw [if_pos hx, hone] at this
        show _ + 1 = 1
        omega
  · show (jobDone s.shared (s.threads t).job (s.threads t).discardSample).numSamplesDiscarded =
      discardedEntries (jobDone s.shared (s.threads t).job (s.threads t).discardSample).allEntries
    rcases hdone with ⟨hentries, hnum, -⟩ | ⟨x, hx, hentries, hnum, -⟩ <;> rw [hentries, hnum, hok.counted]
    have hpos : 0 < countThreads (Thread.holds x) s := by
      have := hheld x
      rw [if_pos hx] at this
      omega
    obtain ⟨-, -, entry, hentry, hdisc⟩ := hok.conserved.of_held hpos
    rw [List.modify_eq_set_getElem?, hentry]
    exact (discardedEntries_set hentry hdisc { entry with discarded := 1 }).symm

/-- Work keeps the corpus in order: there is a new entry, or a change of an entry
that the thread holds. -/
theorem CorpusOk.works {cfg : Config μ} {s s' : System τ μ} {event : Event τ} (hok : CorpusOk s)
    (h : Step cfg s event s') (hw : Works s event s') : CorpusOk s' := by
  have hheld : ∀ e, countThreads (Thread.holds e) s' = countThreads (Thread.holds e) s := fun e =>
    h.countThreads_works hw fun inJob job => inJob && decide (job = .fuzz e)
  have hsaved : ∀ saved, s'.shared.stateDat = some saved → saved.Counts := fun saved hs =>
    hok.saved saved (hw.stateDat ▸ hs)
  have hconserved := hok.conserved.congr hheld
  have hcounted := hw.numSamplesDiscarded.trans hok.counted
  rcases h.entries_works hw with ⟨hentries, hqueue⟩ | ⟨t, job, sample, i, j, -, hs⟩ |
    ⟨t, e, entry, result, hasNew, hin, hjob, hentry, hentries, hqueue⟩
  · refine ⟨?_, ?_, hsaved⟩
    · rw [hentries, hqueue]
      exact hconserved
    · rw [hentries]
      exact hcounted
  · refine ⟨?_, ?_, hsaved⟩
    · rw [hs]
      exact hconserved.append (Or.inl ⟨rfl, rfl⟩)
    · rw [hcounted, hs, discardedEntries, discardedEntries]
      show _ = (s.shared.allEntries ++ [newEntry sample i j]).countP _
      rw [List.countP_append]
      rfl
  · have hpos : 0 < countThreads (Thread.holds e) s := by
      refine Nat.pos_of_ne_zero fun h0 => ?_
      have := countThreads_eq_zero.1 h0 t
      simp [Thread.holds, hin, hjob] at this
    obtain ⟨-, hone, entry', hentry', hdisc⟩ := hok.conserved.of_held hpos
    cases hentry.symm.trans hentry'
    have hdisc' : (recordRun entry result hasNew).discarded = 0 :=
      (recordRun_same entry result hasNew).2.trans hdisc
    refine ⟨?_, ?_, hsaved⟩
    · rw [hentries, hqueue]
      refine hok.conserved.set hpos (fun x hx => ⟨List.getElem?_set_ne hx, hheld x⟩)
        ⟨_, List.getElem?_set_self (List.getElem?_eq_some_iff.1 hentry).1, ?_⟩
      rw [hdisc']
      exact (hheld e).trans hone
    · rw [hentries, discardedEntries_set hentry hdisc, hdisc', if_neg (by decide)]
      exact hcounted

/-- **A session keeps the corpus in order**, if what it found on disk counts: each entry is
in the queue, with one thread or discarded, and the heap has its order, in every state of
every run.  -/
theorem CorpusOk.run {cfg : Config μ} {restore : Bool} {inputs : List Sample}
    {disk : Option SavedState} {files : ℕ → Option Sample} {tr : List (Event τ)} {s : System τ μ}
    (hdisk : ∀ saved, disk = some saved → saved.Counts)
    (h : Run (Step cfg) (System.init restore inputs disk files) tr s) : CorpusOk s := by
  induction h with
  | refl =>
      refine ⟨⟨nofun, fun e _ => ?_, fun i hi => le_rfl⟩, rfl, hdisk⟩
      show 0 + countThreads (Thread.holds e) (System.init restore inputs disk files) = 0
      rw [Nat.zero_add]
      exact countThreads_eq_zero.2 fun t => rfl
  | snoc hrun hstep ih =>
      rcases hstep.kinds with ⟨t, choices, job, shared, rfl, hpc, hjob, rfl⟩ | ⟨t, rfl, hpc, rfl⟩ | hw
      · exact ih.call hrun hpc hjob
      · exact ih.done hpc
      · exact ih.works hstep hw

omit [Fintype τ] [DecidableEq τ] in
/-- What is on disk counts its discarded entries. -/
theorem Disk.counts {disk : Option SavedState} {files : ℕ → Option Sample} (h : Disk disk files) :
    ∀ saved, disk = some saved → saved.Counts := by
  induction h with
  | fresh => exact nofun
  | session cfg _ hrun ih => exact (CorpusOk.run ih hrun).saved

/-- **A step leaves the keys in the queue alone.** Only the entry that a thread has is
written to, and it is not in the queue, so the heap is never out of order between two of its
operations.  -/
theorem CorpusOk.keys {cfg : Config μ} {restore : Bool} {inputs : List Sample}
    {disk : Option SavedState} {files : ℕ → Option Sample} {tr : List (Event τ)}
    {s s' : System τ μ} {event : Event τ}
    (hrun : Run (Step cfg) (System.init restore inputs disk files) tr s) (hok : CorpusOk s)
    (h : Step cfg s event s') {e : ℕ} (he : e ∈ s.shared.sampleQueue) {entry : SampleQueueEntry}
    (hentry : s.shared.allEntries[e]? = some entry) :
    ∃ entry', s'.shared.allEntries[e]? = some entry' ∧ entry'.priority = entry.priority ∧
      entry'.sampleIndex = entry.sampleIndex := by
  obtain ⟨entry', hentry', rfl | rfl | ⟨t, result, hasNew, hin, hjob, -⟩⟩ := h.entry_eq hrun hentry
  · exact ⟨_, hentry', rfl, rfl⟩
  · exact ⟨_, hentry', rfl, rfl⟩
  · -- the entry that is changed is held, so it is not in the queue
    have hpos := countThreads_pos (Thread.holds_iff.2 ⟨hin, hjob⟩)
    exact absurd he (hok.conserved.of_held hpos).1

/-- **A FUZZ job takes a greatest entry**: the queue afterwards is the queue before without
it, and nothing that is left compares greater under `CmpEntryPtrs`. A call that restores
first takes it from the restored queue.  -/
theorem CorpusOk.greatest {cfg : Config μ} {restore : Bool} {inputs : List Sample}
    {disk : Option SavedState} {files : ℕ → Option Sample} {tr : List (Event τ)}
    {s s' : System τ μ} {t : τ} {choices : Choices} {e : ℕ}
    (hrun : Run (Step cfg) (System.init restore inputs disk files) tr s) (hok : CorpusOk s)
    (h : Step cfg s (.gotJob t choices (.fuzz e)) s') :
    (s.shared.state ≠ .restoreNeeded →
      s.shared.sampleQueue.toList.Perm (e :: s'.shared.sampleQueue.toList)) ∧
    ∀ e' ∈ s'.shared.sampleQueue, ∀ entry entry', s'.shared.allEntries[e]? = some entry →
      s'.shared.allEntries[e']? = some entry' → cmpEntryPtrs entry entry' = false := by
  cases h with
  | thread hl =>
      obtain rfl : t = _ := hl.facts.thread
      exact absurd rfl (hl.facts.notShared.1 _ _)
  | @getJob _ _ shared _ hpc hjob =>
      obtain ⟨f, hf, hentries, -, -, ⟨hne, -⟩ | ⟨x, ⟨⟩, htop, hqueue⟩⟩ :=
        synchronizeAndGetJob_entries hjob
      · exact absurd rfl (hne e)
      have hf' := hok.restoreIfNeeded hrun hf
      have hperm := Heap.pop_perm (keyOf f.allEntries) htop
      dsimp only
      rw [hentries, hqueue]
      refine ⟨fun hs => ?_, fun e' he' entry entry' hentry hentry' => ?_⟩
      · rcases restoreIfNeeded_eq hf with ⟨-, rfl⟩ | ⟨saved, queue, hs', -⟩
        · exact hperm
        · exact absurd hs' hs
      · have hmem : e' ∈ f.sampleQueue := by
          rw [← Array.mem_toList_iff, hperm.mem_iff]
          exact List.mem_cons_of_mem _ (Array.mem_toList_iff.2 he')
        have hle := Heap.key_le_top hf'.conserved.ordered hmem htop
        rw [keyOf, keyOf, hentry, hentry'] at hle
        rw [← Bool.not_eq_true, cmpEntryPtrs_iff]
        exact not_lt.2 hle

/-- What holds of the corpus and the queue in every state of a session, and of every
step from there. -/
structure CorpusDiscipline (cfg : Config μ) (s : System τ μ) : Prop where
  /-- Every entry is in the queue once, or in one FUZZ job, or discarded. -/
  place : ∀ e entry, s.shared.allEntries[e]? = some entry →
    s.shared.sampleQueue.toList.count e + countThreads (Thread.holds e) s +
      (if entry.discarded = 1 then 1 else 0) = 1 ∧ (entry.discarded = 0 ∨ entry.discarded = 1)
  /-- Nothing else is in the queue or in a FUZZ job. -/
  known : ∀ e, e ∈ s.shared.sampleQueue ∨ (∃ t, (s.threads t).holds e = true) →
    e < s.shared.allEntries.length
  counted : s.shared.numSamplesDiscarded = discardedEntries s.shared.allEntries
  saved : ∀ saved, s.shared.stateDat = some saved →
    saved.numSamplesDiscarded = discardedEntries saved.entries
  keys : ∀ event s', Step cfg s event s' → ∀ e ∈ s.shared.sampleQueue, ∀ entry,
    s.shared.allEntries[e]? = some entry → ∃ entry', s'.shared.allEntries[e]? = some entry' ∧
      entry'.priority = entry.priority ∧ entry'.sampleIndex = entry.sampleIndex
  /-- The entry of a FUZZ job comes out of the queue, and no entry that is left there
  comes after it. -/
  greatest : ∀ t choices e s', Step cfg s (.gotJob t choices (.fuzz e)) s' →
    (s.shared.state ≠ .restoreNeeded →
      s.shared.sampleQueue.toList.Perm (e :: s'.shared.sampleQueue.toList)) ∧
    ∀ e' ∈ s'.shared.sampleQueue, ∀ entry entry', s'.shared.allEntries[e]? = some entry →
      s'.shared.allEntries[e']? = some entry' → cmpEntryPtrs entry entry' = false

/-- **Entries are neither lost nor duplicated by scheduling**, in every session, over every
interleaving of its threads, from whatever earlier sessions saved.  Every entry is in the
queue, with one thread or discarded, the heap is in order, and a FUZZ job takes a greatest
entry of it.  -/
theorem entries_conserved {cfg : Config μ} {restore : Bool} {inputs : List Sample}
    {disk : Option SavedState} {files : ℕ → Option Sample} {tr : List (Event τ)} {s : System τ μ}
    (hdisk : Disk disk files)
    (hrun : Run (Step cfg) (System.init restore inputs disk files) tr s) :
    CorpusDiscipline cfg s := by
  have hok := CorpusOk.run hdisk.counts hrun
  refine ⟨fun e entry he => ?_, fun e he => ?_, hok.counted, fun saved hs => (hok.saved saved hs).2,
    fun event s' h e he entry => hok.keys hrun h he, fun t choices e s' h => hok.greatest hrun h⟩
  · have hplace := hok.conserved.place e entry he
    by_cases hd : entry.discarded = 1
    · rw [if_pos hd]
      exact ⟨by omega, Or.inr hd⟩
    · rw [if_neg hd]
      exact ⟨by omega, by omega⟩
  · rcases he with he | ⟨t, ht⟩
    · obtain ⟨-, entry, hentry, -⟩ := hok.conserved.of_mem he
      exact (List.getElem?_eq_some_iff.1 hentry).1
    · obtain ⟨-, -, entry, hentry, -⟩ := hok.conserved.of_held (countThreads_pos ht)
      exact (List.getElem?_eq_some_iff.1 hentry).1

end

section

attribute [local instance] listTinyInst

/-- A session with a server, without retries and without trimming. -/
def sessionConfig : Config SimpleTrimmerContext where
  incrementalCoverage := true
  coverageReproduceRetries := 0
  minimizeSamples := false
  trackRanges := false
  addAllInputs := false
  dryRun := false
  server := true
  skipInitialServerSync := false
  canGenerateSample := false
  maxSize := 4
  overHangRatio _ _ := false
  overCrashRatio _ _ := false
  isReturnValueInteresting _ := true
  minimizer := simpleTrimmer

/-- Its only input file. -/
def sessionInput : Sample := Sample.init (str "A")

/-- The coverage of one offset. -/
def oneOffset (offset : UInt64) : Coverage := [⟨str "m", {offset}⟩]

/-- The target runs through one offset. -/
def reaches (offset : UInt64) : Outcome := ⟨.ok, oneOffset offset, 0⟩

/-- It may be time to save, and the server may have samples. -/
def chosen (saveDue : Bool) (newSamples : List Sample) : Choices :=
  ⟨saveDue, false, newSamples, some 1, Sample.empty⟩

/-- One thread processes the input file, which becomes the first entry, and gets the FUZZ
job for it: the queue is empty, and the entry is the thread's.  -/
theorem run_fuzz : ∃ (tr : List (Event Bool)) (s : System Bool SimpleTrimmerContext),
    Run (Step sessionConfig) (System.init false [sessionInput] none fun _ => none) tr s ∧
    s.shared.allEntries = [newEntry sessionInput 0 0] ∧ s.shared.sampleQueue = #[] :=
  ⟨_, _, Run.cons (Step.getJob (t := false) (chosen false []) rfl rfl)
    (Run.cons (Step.thread (t := false) (.process rfl rfl))
    (Run.cons (Step.thread (t := false) (.firstRun (reaches 1) rfl))
    (Run.cons (Step.interesting (t := false) rfl rfl)
    (Run.cons (Step.thread (t := false) (.report rfl))
    (Run.cons (Step.number (t := false) rfl)
    (Run.cons (Step.create (t := false) rfl)
    (Run.cons (Step.push (t := false) rfl)
    (Run.cons (Step.thread (t := false) (.finish rfl))
    (Run.cons (Step.thread (t := false) (.processed rfl rfl))
    (Run.cons (Step.done (t := false) rfl)
    (Run.single (Step.getJob (t := false) (chosen false []) rfl rfl)))))))))))),
    rfl, rfl⟩

/-- The entry is not in the queue, so some thread has it, and just one: this is what the
conserved number of places says of it.  -/
theorem entries_conserved_fuzz : ∃ s : System Bool SimpleTrimmerContext,
    s.shared.allEntries = [newEntry sessionInput 0 0] ∧ s.shared.sampleQueue = #[] ∧
      countThreads (Thread.holds 0) s = 1 := by
  obtain ⟨tr, s, hrun, hentries, hqueue⟩ := run_fuzz
  have hplace := ((entries_conserved (.fresh _) hrun).place 0 (newEntry sessionInput 0 0)
    (by rw [hentries]; rfl)).1
  rw [hqueue] at hplace
  refine ⟨s, hentries, hqueue, ?_⟩
  simpa [newEntry] using hplace

end

end Fuzzer
end Jackalope
