/-
# Which entry is fuzzed next

`AdjustSamplePriority` sets the priority of an entry to 0 when a run has found new coverage
and takes one off it when a run has not, and the queue hands out an entry of the greatest
priority, the newest of them.  So of the entries in the queue the one that is fuzzed next has
the fewest fruitless runs since it was last of use: `fuzzes_least_fruitless` says so for the
trace of a session, with the jobs of other threads in between.

Priorities are saved, so the runs of a restored session go on from those behind the state
that it restores.  `DiskRuns` is what is behind the state on disk: the runs of the session
that saved it, up to that save, and those of the session which that one restored.  What a
killed session ran after its last save is lost.

It follows that no entry is starved: `waits_boundedly` bounds the number of FUZZ jobs that go
to others while an entry is in the queue, as long as they find nothing new and each of them
runs the target.  The bound is a sum over the corpus at the beginning, and for each entry
that joins the corpus meanwhile (samples of the server do) one more than the fruitless runs of
the entry that waits.

A priority is a `double`, and one of `-2^53` is as low as it gets; entries that have come
that far are told apart by their index only.
-/

import Jackalope.Fuzzer.Calls
import Jackalope.Fuzzer.Phases
import Mathlib.Algebra.Order.BigOperators.Group.Finset

namespace Jackalope
namespace Fuzzer

open Foundation

variable {τ μ : Type}

/-! ### Fruitless runs -/

/-- One more run, if it is one of the entry. -/
def countFruitless (e n : ℕ) : Event τ → ℕ
  | .returned _ (.fuzz e') _ hasNewCoverage =>
      if e' = e then (if hasNewCoverage then 0 else n + 1) else n
  | _ => n

/-- How many runs of the entry there have been since one found new coverage, given how many
there had been before this session. -/
def fruitless (before : ℕ → ℕ) (tr : List (Event τ)) (e : ℕ) : ℕ :=
  tr.foldl (countFruitless e) (before e)

/-- One event more, counted on what was counted before it.  -/
theorem fruitless_snoc (before : ℕ → ℕ) (tr : List (Event τ)) (event : Event τ) (e : ℕ) :
    fruitless before (tr ++ [event]) e = countFruitless e (fruitless before tr e) event := by
  rw [fruitless, List.foldl_append]
  rfl

/-- Steps that run no entry count nothing: the number of fruitless runs of each entry is
what it was before the step.  -/
theorem countFruitless_eq {event : Event τ}
    (h : ∀ t e result hasNew, event ≠ .returned t (.fuzz e) result hasNew) (e n : ℕ) :
    countFruitless e n event = n := by
  cases event with
  | returned t job result hasNew =>
      cases job with
      | fuzz e' => exact absurd rfl (h t e' result hasNew)
      | processSample | wait => rfl
  | _ => rfl

/-- The priority of an entry after `n` fruitless runs. -/
def rank (n : ℕ) : ℤ := -((min n (2 ^ 53) : ℕ) : ℤ)

/-- The priority goes down by one with each run that found nothing, from that of one number
of fruitless runs to that of the next, and stops where the `double` stops counting.  -/
theorem decrement_rank (n : ℕ) : decrement (rank n) = rank (n + 1) := by
  unfold decrement rank
  omega

/-- A run that found something sets the priority back to 0, any other one lowers it.  -/
theorem recordRun_priority (entry : SampleQueueEntry) (result : RunResult) (hasNew : Bool) :
    (recordRun entry result hasNew).priority = if hasNew then 0 else decrement entry.priority := by
  cases result <;> cases hasNew <;> rfl

/-! ### What is behind the state on disk -/

/-- Whether it is time to save. -/
def Event.saveDue : Event τ → Bool
  | .gotJob _ choices _ => choices.saveDue
  | _ => false

/-- What the entries have behind them when a session begins: what is behind the state that it
restores, or nothing. -/
def baseRuns (restore : Bool) (saved : ℕ → ℕ) : ℕ → ℕ := if restore then saved else fun _ => 0

section

variable [TinyInst] [DecidableEq τ]

/-- **What is behind the state that was saved last**, after a run: the fruitless runs up to
that save, or what was behind the state on disk when the session began. -/
inductive RunsSaved (cfg : Config μ) (init : System τ μ) (base saved : ℕ → ℕ) :
    List (Event τ) → System τ μ → (ℕ → ℕ) → Prop
  | begin : RunsSaved cfg init base saved [] init saved
  | save {tr s event s' runs} : RunsSaved cfg init base saved tr s runs → Step cfg s event s' →
      event.Saves s → RunsSaved cfg init base saved (tr ++ [event]) s' (fruitless base tr)
  | step {tr s event s' runs} : RunsSaved cfg init base saved tr s runs → Step cfg s event s' →
      ¬ event.Saves s → RunsSaved cfg init base saved (tr ++ [event]) s' runs

/-- The events up to a save are a run of the session.  -/
theorem RunsSaved.run {cfg : Config μ} {init : System τ μ} {base saved : ℕ → ℕ}
    {tr : List (Event τ)} {s : System τ μ} {runs : ℕ → ℕ}
    (h : RunsSaved cfg init base saved tr s runs) : Run (Step cfg) init tr s := by
  induction h with
  | begin => exact Run.refl
  | save _ hstep _ ih | step _ hstep _ ih => exact ih.snoc hstep

/-- After every run something is behind it: the runs that the last save has recorded, or
those of the sessions before if it has not saved.  -/
theorem RunsSaved.exists_of_run {cfg : Config μ} {init : System τ μ} (base saved : ℕ → ℕ)
    {tr : List (Event τ)} {s : System τ μ} (h : Run (Step cfg) init tr s) :
    ∃ runs, RunsSaved cfg init base saved tr s runs := by
  induction h with
  | refl => exact ⟨saved, .begin⟩
  | @snoc tr s event s' _ hstep ih =>
      obtain ⟨runs, hruns⟩ := ih
      by_cases hsaves : event.Saves s
      · exact ⟨_, hruns.save hstep hsaves⟩
      · exact ⟨runs, hruns.step hstep hsaves⟩

/-- A run in which it is never time to save leaves on disk what was there, with the runs
that are behind that.  -/
theorem RunsSaved.of_run {cfg : Config μ} {init : System τ μ} {base saved : ℕ → ℕ}
    {tr : List (Event τ)} {s : System τ μ} (h : Run (Step cfg) init tr s)
    (hdue : tr.any Event.saveDue = false) : RunsSaved cfg init base saved tr s saved := by
  induction h with
  | refl => exact .begin
  | @snoc tr s event s' _ hstep ih =>
      rw [List.any_append, Bool.or_eq_false_iff] at hdue
      refine (ih hdue.1).step hstep ?_
      rintro ⟨t, choices, job, rfl, -, hsave⟩
      exact List.any_eq_false.1 hdue.2 _ (List.mem_singleton_self _) hsave

end

/-- **What is on disk, with the runs behind it**: nothing, or what a session left that found
what can be there. -/
inductive DiskRuns [TinyInst] : Option SavedState → (ℕ → Option Sample) → (ℕ → ℕ) → Prop
  | fresh (files) : DiskRuns none files fun _ => 0
  | session {τ μ : Type} [Fintype τ] [DecidableEq τ] {disk files restore inputs tr saved runs}
      (cfg : Config μ) {s : System τ μ} : DiskRuns disk files saved →
      RunsSaved cfg (System.init restore inputs disk files) (baseRuns restore saved) saved tr s
        runs → DiskRuns s.shared.stateDat s.shared.sampleFiles runs

/-- A directory whose history is known was left behind by such sessions.  -/
theorem DiskRuns.disk [TinyInst] {disk : Option SavedState} {files : ℕ → Option Sample}
    {runs : ℕ → ℕ} (h : DiskRuns disk files runs) : Disk disk files := by
  induction h with
  | fresh files => exact .fresh files
  | session cfg _ hruns ih => exact .session cfg ih hruns.run

/-- Whatever is on disk has runs behind it: by induction on the sessions, those that led to
its last save.  -/
theorem Disk.exists_runs [TinyInst] {disk : Option SavedState} {files : ℕ → Option Sample}
    (h : Disk disk files) : ∃ runs, DiskRuns disk files runs := by
  induction h with
  | fresh files => exact ⟨_, .fresh files⟩
  | @session _ _ _ _ _ _ restore _ _ cfg s _ hrun ih =>
      obtain ⟨saved, hsaved⟩ := ih
      obtain ⟨runs, hruns⟩ := RunsSaved.exists_of_run (baseRuns restore saved) saved hrun
      exact ⟨runs, .session cfg hsaved hruns⟩

/-! ### The priorities of a session -/

/-- The saved priorities count these fruitless runs. -/
structure SavedState.Ranked (runs : ℕ → ℕ) (saved : SavedState) : Prop where
  known : ∀ (e : ℕ) (entry : SampleQueueEntry), saved.entries[e]? = some entry →
    entry.priority = rank (runs e)
  new : ∀ e, saved.entries[e]? = none → runs e = 0

/-- **The priority of an entry counts its fruitless runs**, in the session and in what it
saved last. -/
structure Ranked (base runs : ℕ → ℕ) (tr : List (Event τ)) (f : Shared) : Prop where
  known : ∀ (e : ℕ) (entry : SampleQueueEntry), f.allEntries[e]? = some entry →
    entry.priority = rank (fruitless base tr e)
  new : f.state ≠ .restoreNeeded → ∀ e, f.allEntries[e]? = none → fruitless base tr e = 0
  saved : ∀ saved, f.stateDat = some saved → saved.Ranked runs

/-- What `SaveState` writes has the priorities of the moment, so they are those of the
fruitless runs up to the save.  -/
theorem Ranked.savedOf {base runs : ℕ → ℕ} {tr : List (Event τ)} {f : Shared}
    (h : Ranked base runs tr f) (hstate : f.state ≠ .restoreNeeded) :
    (savedOf f).Ranked (fruitless base tr) := ⟨h.known, h.new hstate⟩

/-- A step that runs no entry, and leaves the priorities alone: nothing is added to the
number of fruitless runs, and what is saved from now on must be right by what it was before.
-/
theorem Ranked.congr {base runs runs' : ℕ → ℕ} {tr : List (Event τ)} {f f' : Shared}
    {event : Event τ} (h : Ranked base runs tr f)
    (hevent : ∀ t e result hasNew, event ≠ .returned t (.fuzz e) result hasNew)
    (hstate : f.state ≠ .restoreNeeded)
    (hentries : f'.allEntries.map (·.priority) = f.allEntries.map (·.priority))
    (hsaved : ∀ saved, f'.stateDat = some saved → saved.Ranked runs') :
    Ranked base runs' (tr ++ [event]) f' := by
  have hsame : ∀ e : ℕ, (f'.allEntries[e]?).map (·.priority) = (f.allEntries[e]?).map (·.priority) := by
    intro e
    rw [← List.getElem?_map, ← List.getElem?_map, hentries]
  refine ⟨fun e entry he => ?_, fun _ e he => ?_, hsaved⟩
  · have hmap := hsame e
    rw [he] at hmap
    obtain ⟨entry', he', hp⟩ := Option.map_eq_some_iff.1 hmap.symm
    rw [fruitless_snoc, countFruitless_eq hevent, ← h.known e entry' he']
    exact hp.symm
  · have hmap := hsame e
    rw [he] at hmap
    rw [fruitless_snoc, countFruitless_eq hevent]
    exact h.new hstate e (Option.map_eq_none_iff.1 hmap.symm)

section

variable [TinyInst] [DecidableEq τ]

/-- The three ways in which work touches the priorities: not at all, `SaveSample` pushes an
entry, and `FuzzJob` records a run of its entry. -/
theorem Step.ranks {cfg : Config μ} {s s' : System τ μ} {event : Event τ}
    (h : Step cfg s event s') (hw : Works s event s') :
    ((∀ t e result hasNew, event ≠ .returned t (.fuzz e) result hasNew) ∧
      (s'.shared.allEntries = s.shared.allEntries ∨ ∃ sample fileindex sampleIndex,
        s'.shared.allEntries = s.shared.allEntries ++ [newEntry sample fileindex sampleIndex])) ∨
    ∃ t e entry result hasNew, event = .returned t (.fuzz e) result hasNew ∧
      s.shared.allEntries[e]? = some entry ∧
      s'.shared.allEntries = s.shared.allEntries.set e (recordRun entry result hasNew) := by
  cases h with
  | @thread t event th hl =>
      refine Or.inl ⟨?_, Or.inl rfl⟩
      cases hl with
      | processed _ hjob =>
          rw [hjob]
          exact nofun
      | _ => exact nofun
  | interesting | number | create => exact Or.inl ⟨nofun, Or.inl rfl⟩
  | push => exact Or.inl ⟨nofun, Or.inr ⟨_, _, _, rfl⟩⟩
  | adjust hpc hjob he =>
      rw [hjob]
      exact Or.inr ⟨_, _, _, _, _, rfl, he, rfl⟩
  | getJob => exact absurd hw.noJob nofun
  | done => exact absurd rfl (hw.notDone _ _)

/-- Work keeps the priorities.  A run of an entry that found nothing takes one off its
priority, a run that found something sets it back to nothing, and nothing else that a thread
does touches a priority.  -/
theorem Ranked.works {cfg : Config μ} {base runs runs' : ℕ → ℕ} {tr : List (Event τ)}
    {s s' : System τ μ} {event : Event τ} (hI : Ranked base runs tr s.shared)
    (hstate : s.shared.state ≠ .restoreNeeded) (h : Step cfg s event s') (hw : Works s event s')
    (hsaved : ∀ saved, s'.shared.stateDat = some saved → saved.Ranked runs') :
    Ranked base runs' (tr ++ [event]) s'.shared := by
  rcases h.ranks hw with ⟨hevent, hsame | ⟨sample, i, j, hpush⟩⟩ |
    ⟨t, e, entry, result, hasNew, rfl, hentry, hset⟩
  · exact hI.congr hevent hstate (by rw [hsame]) hsaved
  · refine ⟨fun e entry he => ?_, fun _ e he => ?_, hsaved⟩
    · rw [fruitless_snoc, countFruitless_eq hevent]
      rw [hpush, List.getElem?_append] at he
      split at he
      · exact hI.known e entry he
      · -- a new entry has not been run
        rename_i hge
        have hzero : e - s.shared.allEntries.length = 0 := by
          have hlt := (List.getElem?_eq_some_iff.1 he).1
          rw [List.length_singleton] at hlt
          omega
        rw [hzero, List.getElem?_cons_zero] at he
        cases he
        rw [hI.new hstate e (List.getElem?_eq_none (Nat.not_lt.1 hge))]
        rfl
    · rw [fruitless_snoc, countFruitless_eq hevent]
      refine hI.new hstate e (List.getElem?_eq_none ?_)
      have hlen := List.getElem?_eq_none_iff.1 he
      rw [hpush, List.length_append] at hlen
      omega
  · refine ⟨fun e' entry' he' => ?_, fun _ e' he' => ?_, hsaved⟩
    · rw [fruitless_snoc]
      rw [hset, List.getElem?_set] at he'
      split at he'
      · rename_i heq
        subst heq
        rw [if_pos (List.getElem?_eq_some_iff.1 hentry).1] at he'
        cases he'
        rw [recordRun_priority, hI.known e entry hentry, decrement_rank]
        cases hasNew
        · exact congrArg rank (if_pos rfl).symm
        · simp [countFruitless, rank]
      · rename_i hne
        rw [hI.known e' entry' he']
        exact congrArg rank (if_neg hne).symm
    · rw [fruitless_snoc]
      have hlen := List.getElem?_eq_none_iff.1 he'
      rw [hset, List.length_set] at hlen
      have hne : e ≠ e' := by
        have hlt := (List.getElem?_eq_some_iff.1 hentry).1
        omega
      exact (if_neg hne).trans (hI.new hstate e' (List.getElem?_eq_none hlen))

omit [TinyInst] [DecidableEq τ] in
/-- **The first call** restores the priorities that were saved, so the session begins with
the numbers of fruitless runs that the save has recorded, whatever was run after it in the
session before.  -/
theorem Ranked.restored {restore : Bool} {inputs : List Sample} {disk : Option SavedState}
    {files : ℕ → Option Sample} {cfg : Config μ} {choices : Choices} {shared : Shared} {job : Job}
    {event : Event τ} {runs runs' : ℕ → ℕ} (hdisk : ∀ saved, disk = some saved → saved.Ranked runs)
    (hevent : ∀ t e result hasNew, event ≠ .returned t (.fuzz e) result hasNew)
    (hs : (System.init restore inputs disk files : System τ μ).shared.state = .restoreNeeded)
    (hjob : synchronizeAndGetJob cfg choices
      (System.init restore inputs disk files : System τ μ).shared = some (shared, job))
    (hsaved : ∀ saved, shared.stateDat = some saved → saved.Ranked runs') :
    Ranked (baseRuns restore runs) runs' [event] shared := by
  cases restore with
  | false => cases hs
  | true =>
      obtain ⟨f₁, h₁, hentries, -, -, -⟩ := synchronizeAndGetJob_entries hjob
      rcases restoreIfNeeded_eq h₁ with ⟨hne, -⟩ | ⟨saved, queue, -, hdat, -, rfl⟩
      · exact absurd hs hne
      have hranked := hdisk saved hdat
      have hcount : ∀ e, fruitless (baseRuns true runs) [event] e = runs e := fun e =>
        countFruitless_eq hevent e _
      replace hentries : shared.allEntries = saved.entries.map (loadEntry files) := hentries
      refine ⟨fun e entry he => ?_, fun _ e he => ?_, hsaved⟩
      · rw [hentries, List.getElem?_map] at he
        obtain ⟨entry', he', rfl⟩ := Option.map_eq_some_iff.1 he
        rw [hcount]
        exact hranked.known e entry' he'
      · rw [hentries, List.getElem?_map] at he
        rw [hcount]
        exact hranked.new e (Option.map_eq_none_iff.1 he)

omit [TinyInst] in
/-- `JobDone` changes no priority; it puts the entry back with the one it has.  -/
theorem jobDone_priorities (f : Shared) (job : Job) (discardSample : Bool) :
    (jobDone f job discardSample).allEntries.map (·.priority) = f.allEntries.map (·.priority) := by
  obtain ⟨-, ⟨hentries, -⟩ | ⟨e, -, hentries, -⟩⟩ := jobDone_entries f job discardSample
  · rw [hentries]
  · rw [hentries]
    refine List.ext_getElem? fun i => ?_
    rw [List.getElem?_map, List.getElem?_map, List.getElem?_modify]
    cases f.allEntries[i]? with
    | none => rfl
    | some entry =>
        show Option.map _ (some _) = _
        split <;> rfl

/-- **Every step counts in the priorities**, whatever is saved meanwhile: the priority of an
entry is, down to the least one that a double can reach by counting, the number of its
fruitless runs since its last fruitful one, taken negatively.  -/
theorem Ranked.step {cfg : Config μ} {restore : Bool} {inputs : List Sample}
    {disk : Option SavedState} {files : ℕ → Option Sample} {tr : List (Event τ)}
    {s s' : System τ μ} {event : Event τ} {saved runs runs' : ℕ → ℕ}
    (hdisk : ∀ found, disk = some found → found.Ranked saved)
    (hrun : Run (Step cfg) (System.init restore inputs disk files) tr s)
    (hI : Ranked (baseRuns restore saved) runs tr s.shared) (h : Step cfg s event s')
    (hsaved : ∀ found, s'.shared.stateDat = some found → found.Ranked runs') :
    Ranked (baseRuns restore saved) runs' (tr ++ [event]) s'.shared := by
  rcases h.kinds with ⟨t, choices, job, shared, rfl, hpc, hjob, rfl⟩ | ⟨t, rfl, hpc, rfl⟩ | hw
  · by_cases hs : s.shared.state = .restoreNeeded
    · obtain ⟨rfl, rfl⟩ := nothing_of_restoreNeeded hrun hs
      exact Ranked.restored hdisk nofun hs hjob hsaved
    · obtain ⟨f₁, h₁, hentries, -⟩ := synchronizeAndGetJob_entries hjob
      rcases restoreIfNeeded_eq h₁ with ⟨-, rfl⟩ | ⟨found, queue, hs', -⟩
      · exact hI.congr nofun hs (congrArg _ hentries) hsaved
      · exact absurd hs' hs
  · have hs : s.shared.state ≠ .restoreNeeded := by
      intro hs
      obtain ⟨-, rfl⟩ := nothing_of_restoreNeeded hrun hs
      cases hpc
    exact hI.congr nofun hs (jobDone_priorities _ _ _) hsaved
  · have hs : s.shared.state ≠ .restoreNeeded := by
      intro hs
      have hin := hw.inJob
      obtain ⟨-, rfl⟩ := nothing_of_restoreNeeded hrun hs
      cases hin
    exact hI.works hs h hw hsaved

/-- **A session counts the fruitless runs in the priorities**, if what it found on disk
counts those behind it; and so does what it saves. -/
theorem Ranked.run {cfg : Config μ} {restore : Bool} {inputs : List Sample}
    {disk : Option SavedState} {files : ℕ → Option Sample} {tr : List (Event τ)} {s : System τ μ}
    {saved runs : ℕ → ℕ} (hdisk : ∀ found, disk = some found → found.Ranked saved)
    (h : RunsSaved cfg (System.init restore inputs disk files) (baseRuns restore saved) saved tr s
      runs) : Ranked (baseRuns restore saved) runs tr s.shared := by
  induction h with
  | begin =>
      refine ⟨nofun, fun hs e _ => ?_, hdisk⟩
      cases restore
      · rfl
      · exact absurd rfl hs
  | @save tr s event s' runs hruns hstep hsaves ih =>
      refine ih.step hdisk hruns.run hstep fun found hfound => ?_
      rw [hstep.saves.1 hsaves] at hfound
      cases hfound
      refine ih.savedOf ?_
      obtain ⟨t, choices, job, -, hstate, -⟩ := hsaves
      rw [hstate]
      exact nofun
  | step hruns hstep hsaves ih =>
      refine ih.step hdisk hruns.run hstep fun found hfound => ih.saved found ?_
      rwa [hstep.saves.2 hsaves] at hfound

omit [DecidableEq τ] in
/-- **The saved priorities count the runs behind them.** -/
theorem DiskRuns.ranked {disk : Option SavedState} {files : ℕ → Option Sample} {runs : ℕ → ℕ}
    (h : DiskRuns disk files runs) : ∀ found, disk = some found → found.Ranked runs := by
  induction h with
  | fresh => exact nofun
  | session cfg _ hruns ih => exact (Ranked.run ih hruns).saved

/-- The priorities of a session count its fruitless runs, from those that are behind the
state on disk. -/
theorem DiskRuns.rankedRun {cfg : Config μ} {restore : Bool} {inputs : List Sample}
    {disk : Option SavedState} {files : ℕ → Option Sample} {tr : List (Event τ)} {s : System τ μ}
    {saved : ℕ → ℕ} (hdisk : DiskRuns disk files saved)
    (h : Run (Step cfg) (System.init restore inputs disk files) tr s) :
    ∃ runs, Ranked (baseRuns restore saved) runs tr s.shared := by
  obtain ⟨runs, hruns⟩ := RunsSaved.exists_of_run (baseRuns restore saved) saved h
  exact ⟨runs, Ranked.run hdisk.ranked hruns⟩

/-! ### The next entry -/

omit [TinyInst] [DecidableEq τ] in
/-- What the queue compares, in fruitless runs: an entry that is not below another one has
had no more of them, and with as many it has no smaller index.  -/
theorem not_cmpEntryPtrs {entry entry' : SampleQueueEntry} {n n' : ℕ} (hn : entry.priority = rank n)
    (hn' : entry'.priority = rank n') (h : cmpEntryPtrs entry entry' = false) :
    min n (2 ^ 53) < min n' (2 ^ 53) ∨
      (min n (2 ^ 53) = min n' (2 ^ 53) ∧ entry'.sampleIndex ≤ entry.sampleIndex) := by
  rw [cmpEntryPtrs, hn, hn'] at h
  split at h
  · rename_i heq
    refine Or.inr ⟨?_, not_lt.1 (of_decide_eq_false h)⟩
    exact_mod_cast neg_inj.1 heq
  · rename_i hne
    have hle := not_lt.1 (of_decide_eq_false h)
    unfold rank at hle hne
    omega

variable [Fintype τ] {cfg : Config μ} {restore : Bool} {inputs : List Sample} {disk : Option SavedState}
  {files : ℕ → Option Sample} {saved : ℕ → ℕ} {tr : List (Event τ)} {s s' : System τ μ}

omit [Fintype τ] in
/-- A thread that is handed an entry has it. -/
theorem Step.holds_of_gotJob {t : τ} {choices : Choices} {e : ℕ}
    (hstep : Step cfg s (.gotJob t choices (.fuzz e)) s') : (s'.threads t).holds e = true := by
  rcases hstep.kinds with ⟨u, c, j, shared, heq, hpc, hjob, rfl⟩ | ⟨u, heq, -⟩ | hw
  · cases heq
    simp [System.setThread, Thread.holds, Pc.inJob]
  · cases heq
  · cases hw.noJob

/-- What is left in the queue has had no fewer fruitless runs than what is handed out, and
of those that had as many it has no later index.  The numbers are compared up to `2 ^ 53`,
where a priority stops going down.  -/
theorem Step.least {t : τ} {choices : Choices} {e e' : ℕ} {entry entry' : SampleQueueEntry}
    (hdisk : DiskRuns disk files saved) (hrun : Run (Step cfg) (System.init restore inputs disk files) tr s)
    (hstep : Step cfg s (.gotJob t choices (.fuzz e)) s') (he' : e' ∈ s'.shared.sampleQueue)
    (hentry : s'.shared.allEntries[e]? = some entry) (hentry' : s'.shared.allEntries[e']? = some entry') :
    min (fruitless (baseRuns restore saved) tr e) (2 ^ 53) <
        min (fruitless (baseRuns restore saved) tr e') (2 ^ 53) ∨
      (min (fruitless (baseRuns restore saved) tr e) (2 ^ 53) =
          min (fruitless (baseRuns restore saved) tr e') (2 ^ 53) ∧
        entry'.sampleIndex ≤ entry.sampleIndex) := by
  have hcmp := ((CorpusOk.run hdisk.disk.counts hrun).greatest hrun hstep).2 e' he' entry entry'
    hentry hentry'
  obtain ⟨runs, hranked⟩ := hdisk.rankedRun (hrun.snoc hstep)
  have hcount : ∀ x, fruitless (baseRuns restore saved) (tr ++ [.gotJob t choices (.fuzz e)]) x =
      fruitless (baseRuns restore saved) tr x := fun x => fruitless_snoc _ _ _ x
  have hn := hranked.known e entry hentry
  have hn' := hranked.known e' entry' hentry'
  rw [hcount] at hn hn'
  exact not_cmpEntryPtrs hn hn' hcmp

/-- What is handed out is an entry, and so is what is left in the queue. -/
theorem Step.handed {t : τ} {choices : Choices} {e : ℕ} (hdisk : DiskRuns disk files saved)
    (hrun : Run (Step cfg) (System.init restore inputs disk files) tr s)
    (hstep : Step cfg s (.gotJob t choices (.fuzz e)) s') :
    (∃ entry, s'.shared.allEntries[e]? = some entry) ∧
      ∀ e' ∈ s'.shared.sampleQueue, ∃ entry', s'.shared.allEntries[e']? = some entry' := by
  have hconserved := (CorpusOk.run hdisk.disk.counts (hrun.snoc hstep)).conserved
  obtain ⟨-, -, entry, hentry, -⟩ := hconserved.of_held (countThreads_pos hstep.holds_of_gotJob)
  refine ⟨⟨entry, hentry⟩, fun e' he' => ?_⟩
  obtain ⟨-, entry', hentry', -⟩ := hconserved.of_mem he'
  exact ⟨entry', hentry'⟩

/-- **The entry that is fuzzed next has the fewest fruitless runs** of those in the queue, in
every session, over every interleaving of its threads, from whatever earlier sessions saved:
no entry left in the queue has had fewer runs since one of its own found new coverage (up to
`2^53` runs, where a priority stops), and of those with as few it is the newest.  The runs
behind the restored state count; `saved` is how many they are. -/
theorem fuzzes_least_fruitless {t : τ} {choices : Choices} {e : ℕ} (hdisk : DiskRuns disk files saved)
    (hrun : Run (Step cfg) (System.init restore inputs disk files) tr s)
    (hstep : Step cfg s (.gotJob t choices (.fuzz e)) s') :
    ∃ entry, s'.shared.allEntries[e]? = some entry ∧
      ∀ e' ∈ s'.shared.sampleQueue, ∃ entry', s'.shared.allEntries[e']? = some entry' ∧
        (min (fruitless (baseRuns restore saved) tr e) (2 ^ 53) <
            min (fruitless (baseRuns restore saved) tr e') (2 ^ 53) ∨
          (min (fruitless (baseRuns restore saved) tr e) (2 ^ 53) =
              min (fruitless (baseRuns restore saved) tr e') (2 ^ 53) ∧
            entry'.sampleIndex ≤ entry.sampleIndex)) := by
  obtain ⟨⟨entry, hentry⟩, hqueue⟩ := hstep.handed hdisk hrun
  refine ⟨entry, hentry, fun e' he' => ?_⟩
  obtain ⟨entry', hentry'⟩ := hqueue e' he'
  exact ⟨entry', hentry', hstep.least hdisk hrun he' hentry hentry'⟩

/-! ### Waiting for a turn -/

/-- The entry that an event hands out for fuzzing. -/
def Event.fuzzed : Event τ → Option ℕ
  | .gotJob _ _ (.fuzz e) => some e
  | _ => none

/-- How often an entry was handed out. -/
def turns (tr : List (Event τ)) (e : ℕ) : ℕ := tr.countP fun event => decide (event.fuzzed = some e)

/-- How many FUZZ jobs were handed out. -/
def fuzzJobs (tr : List (Event τ)) : ℕ := tr.countP fun event => event.fuzzed.isSome

/-- Whether the event is a new entry. -/
def Event.pushes : Event τ → Bool
  | .pushed .. => true
  | _ => false

/-- How many entries joined the corpus. -/
def pushes (tr : List (Event τ)) : ℕ := tr.countP Event.pushes

/-- Behind each hand-out of the entry there is a run of it. -/
def RanSince (tr : List (Event τ)) (e : ℕ) : Prop :=
  ∀ a t choices b, tr = a ++ .gotJob t choices (.fuzz e) :: b →
    ∃ u result hasNew, .returned u (.fuzz e) result hasNew ∈ b

/-- Between two hand-outs of an entry there is a run of it: the mutator has mutated its
sample at least once. -/
def RunsEachTurn (tr : List (Event τ)) : Prop :=
  ∀ a t choices e b, tr = a ++ .gotJob t choices (.fuzz e) :: b → RanSince a e

omit [TinyInst] [DecidableEq τ] [Fintype τ] in
/-- The hand-outs, counted by entry: a hand-out of a FUZZ job is one of exactly one entry,
and each entry has an index below the size of the corpus.  -/
theorem fuzzJobs_eq {tr : List (Event τ)} {n : ℕ}
    (h : ∀ event ∈ tr, ∀ e, event.fuzzed = some e → e < n) :
    fuzzJobs tr = ∑ e ∈ Finset.range n, turns tr e := by
  induction tr with
  | nil => simp [fuzzJobs, turns]
  | cons event tr ih =>
      have ih := ih fun event' hevent' => h event' (List.mem_cons_of_mem _ hevent')
      simp only [fuzzJobs, turns, List.countP_cons] at ih ⊢
      rw [ih, Finset.sum_add_distrib]
      congr 1
      cases hf : event.fuzzed with
      | none => simp
      | some e =>
          have hlt := h event List.mem_cons_self e hf
          simp [Finset.mem_range.2 hlt]

omit [Fintype τ] in
/-- **An entry leaves the queue only when it is handed out**: nothing else that any thread
does, a restore and a `JobDone` of another entry included, takes an index out of the heap.
-/
theorem Step.mem_queue {event : Event τ}
    (hrun : Run (Step cfg) (System.init restore inputs disk files) tr s) (h : Step cfg s event s')
    {e : ℕ} (he : e ∈ s.shared.sampleQueue) (hne : event.fuzzed ≠ some e) :
    e ∈ s'.shared.sampleQueue := by
  rw [← Array.mem_toList_iff, ← List.count_pos_iff] at he ⊢
  rcases h.kinds with ⟨t, choices, job, shared, rfl, hpc, hjob, rfl⟩ | ⟨t, rfl, hpc, rfl⟩ | hw
  · obtain ⟨f₁, h₁, -, -, -, hqueue⟩ := synchronizeAndGetJob_entries hjob
    have hf₁ : f₁ = s.shared := by
      rcases restoreIfNeeded_eq h₁ with ⟨-, heq⟩ | ⟨saved, queue, hs, -⟩
      · exact heq
      · obtain rfl := eq_init_of_restoreNeeded hrun hs
        exact absurd he (Nat.lt_irrefl 0)
    subst hf₁
    rcases hqueue with ⟨-, hqueue⟩ | ⟨x, rfl, htop, hqueue⟩
    · exact he.trans_eq (congrArg (fun queue => queue.toList.count e) hqueue.symm)
    · have hcount := @count_pop (keyOf s.shared.allEntries) _ _ htop e
      have hxe : x ≠ e := fun hxe => hne (congrArg some hxe)
      rw [if_neg hxe, Nat.add_zero] at hcount
      exact he.trans_eq (hcount.symm.trans (congrArg (fun queue => queue.toList.count e) hqueue.symm))
  · obtain ⟨-, hdone⟩ := jobDone_entries s.shared (s.threads t).job (s.threads t).discardSample
    rcases hdone with ⟨-, -, ⟨-, hqueue⟩ | ⟨x, -, hqueue⟩⟩ | ⟨x, -, -, -, hqueue⟩
    · exact he.trans_eq (congrArg (fun queue => queue.toList.count e) hqueue.symm)
    · have hcount := count_push (keyOf s.shared.allEntries) s.shared.sampleQueue x e
      show 0 < (jobDone _ _ _).sampleQueue.toList.count e
      rw [hqueue]
      omega
    · exact he.trans_eq (congrArg (fun queue => queue.toList.count e) hqueue.symm)
  · rcases h.entries_works hw with ⟨-, hqueue⟩ | ⟨t, job, sample, i, j, -, hs⟩ |
      ⟨t, x, entry, result, hasNew, -, -, -, -, hqueue⟩
    · exact he.trans_eq (congrArg (fun queue => queue.toList.count e) hqueue.symm)
    · have hcount := count_push (keyOf (s.shared.allEntries ++ [newEntry sample i j]))
        s.shared.sampleQueue s.shared.allEntries.length e
      rw [hs]
      show 0 < (Heap.push _ _ _).toList.count e
      exact he.trans_le (hcount ▸ Nat.le_add_right _ _)
    · exact he.trans_eq (congrArg (fun queue => queue.toList.count e) hqueue.symm)

omit [Fintype τ] in
/-- A run is recorded by the thread that has the entry: it was handed out to that thread,
which has not been done with it since.  -/
theorem Step.holds_of_returned {u : τ} {e : ℕ} {result : RunResult} {hasNew : Bool}
    (h : Step cfg s (.returned u (.fuzz e) result hasNew) s') : (s.threads u).holds e = true := by
  generalize hevent : Event.returned u (Job.fuzz e) result hasNew = event at h
  cases h with
  | thread hl =>
      cases hl with
      | processed _ hjob =>
          rw [hjob] at hevent
          cases hevent
      | _ => cases hevent
  | adjust hpc hjob _ =>
      rw [hjob] at hevent
      cases hevent
      rw [Thread.holds_iff, hpc]
      exact ⟨rfl, hjob⟩
  | _ => cases hevent

/-- **While an entry waits**: it is in the queue and is not run, and no other entry is handed
out more often than its fruitless runs allow; `start` is how many entries there were when it
began to wait. -/
structure Waits (before : ℕ → ℕ) (start : ℕ) (tr tr' : List (Event τ)) (e : ℕ) (f : Shared) :
    Prop where
  queue : e ∈ f.sampleQueue
  same : fruitless before (tr ++ tr') e = fruitless before tr e
  behind : ∀ x, fruitless before tr x + turns tr' x ≤ fruitless before (tr ++ tr') x + 1
  ran : ∀ x, RanSince tr' x → fruitless before tr x + turns tr' x ≤ fruitless before (tr ++ tr') x
  bound : ∀ x, turns tr' x ≤ fruitless before tr e + 1 - fruitless before tr x
  known : ∀ event ∈ tr', ∀ x, event.fuzzed = some x → x < f.allEntries.length
  grown : f.allEntries.length = start + pushes tr'

omit [TinyInst] [DecidableEq τ] [Fintype τ] in
/-- The only event that hands out an entry is a `SynchronizeAndGetJob` with a FUZZ job for
it.  -/
theorem Event.eq_of_fuzzed {event : Event τ} {x : ℕ} (h : event.fuzzed = some x) :
    ∃ t choices, event = .gotJob t choices (.fuzz x) := by
  unfold Event.fuzzed at h
  split at h <;> cases h
  exact ⟨_, _, rfl⟩

omit [TinyInst] [DecidableEq τ] [Fintype τ] in
/-- One event more: the entry has had one turn more if it was handed out with it.  -/
theorem turns_snoc (tr : List (Event τ)) (event : Event τ) (x : ℕ) :
    turns (tr ++ [event]) x = turns tr x + if event.fuzzed = some x then 1 else 0 := by
  simp [turns, List.countP_append, List.countP_cons]

omit [TinyInst] [DecidableEq τ] [Fintype τ] in
/-- A hand-out, if it is the last step, was not followed by a run. -/
theorem not_ranSince {tr' : List (Event τ)} {event : Event τ} {x : ℕ} (h : event.fuzzed = some x) :
    ¬ RanSince (tr' ++ [event]) x := by
  intro hran
  obtain ⟨t, choices, rfl⟩ := Event.eq_of_fuzzed h
  obtain ⟨u, result, hasNew, hmem⟩ := hran tr' t choices [] rfl
  cases hmem

omit [TinyInst] [DecidableEq τ] [Fintype τ] in
/-- Any other step leaves that open: if the entry was run since, it was run before the step.
-/
theorem RanSince.of_snoc {tr' : List (Event τ)} {event : Event τ} {x : ℕ}
    (h : RanSince (tr' ++ [event]) x)
    (hevent : ∀ u result hasNew, event ≠ .returned u (.fuzz x) result hasNew) : RanSince tr' x := by
  intro a t choices b heq
  obtain ⟨u, result, hasNew, hmem⟩ := h a t choices (b ++ [event]) (by rw [heq]; simp)
  rcases List.mem_append.1 hmem with hmem | hmem
  · exact ⟨u, result, hasNew, hmem⟩
  · exact absurd (List.mem_singleton.1 hmem).symm (hevent u result hasNew)

omit [Fintype τ] in
/-- The corpus grows with the pushes, once something is in the queue: from then on nothing
is restored any more, and only `SaveSample` appends an entry.  -/
theorem Step.grown {event : Event τ} {tr' : List (Event τ)} {e start : ℕ}
    (hrun : Run (Step cfg) (System.init restore inputs disk files) tr s) (h : Step cfg s event s')
    (he : e ∈ s.shared.sampleQueue) (hgrown : s.shared.allEntries.length = start + pushes tr') :
    s'.shared.allEntries.length = start + pushes (tr' ++ [event]) := by
  have hs : s.shared.state ≠ .restoreNeeded := by
    intro hs
    rw [eq_init_of_restoreNeeded hrun hs] at he
    exact absurd he (Array.not_mem_empty e)
  have hsnoc : pushes (tr' ++ [event]) = pushes tr' + if event.pushes then 1 else 0 := by
    simp [pushes, List.countP_append, List.countP_cons]
  rcases h.allEntries hs with ⟨t, savingFor, sample, i, j, rfl, -, heq⟩ | ⟨hnot, hlength⟩
  · rw [hsnoc, heq]
    show (s.shared.allEntries ++ [_]).length = _
    rw [List.length_append, hgrown]
    exact Nat.add_assoc _ _ _
  · have hpushes : event.pushes = false := by
      cases event with
      | pushed t job e sample => exact absurd rfl (hnot t job e sample)
      | _ => rfl
    rw [hsnoc, hlength, hgrown, hpushes]
    rfl

omit [TinyInst] [DecidableEq τ] [Fintype τ] in
/-- The entries that were handed out are in the corpus, which only grows, and so is the one
that the step hands out. -/
theorem Waits.known_snoc {before : ℕ → ℕ} {start : ℕ} {tr' : List (Event τ)} {event : Event τ}
    {e : ℕ} {f f' : Shared} (hI : Waits before start tr tr' e f)
    (hlength : f.allEntries.length ≤ f'.allEntries.length)
    (hnew : ∀ x, event.fuzzed = some x → x < f'.allEntries.length) :
    ∀ event' ∈ tr' ++ [event], ∀ x, event'.fuzzed = some x → x < f'.allEntries.length := by
  intro event' hmem x hx
  rcases List.mem_append.1 hmem with hmem | hmem
  · exact (hI.known event' hmem x hx).trans_le hlength
  · rw [List.mem_singleton.1 hmem] at hx
    exact hnew x hx

omit [TinyInst] [DecidableEq τ] [Fintype τ] in
/-- A fruitless run of another entry.  It brings that entry nearer to the one that waits, and
pays for its next hand-out. -/
theorem Waits.returned {before : ℕ → ℕ} {start : ℕ} {tr' : List (Event τ)} {e x : ℕ} {f f' : Shared}
    (hI : Waits before start tr tr' e f) (hxe : x ≠ e) (u : τ) (result : RunResult)
    (hqueue : e ∈ f'.sampleQueue) (hlength : f.allEntries.length ≤ f'.allEntries.length)
    (hgrown : f'.allEntries.length =
      start + pushes (tr' ++ [.returned u (.fuzz x) result false])) :
    Waits before start tr (tr' ++ [.returned u (.fuzz x) result false]) e f' := by
  have hcount : ∀ y, fruitless before (tr ++ (tr' ++ [.returned u (.fuzz x) result false])) y =
      if x = y then fruitless before (tr ++ tr') y + 1 else fruitless before (tr ++ tr') y :=
    fun y => by
      rw [← List.append_assoc, fruitless_snoc]
      rfl
  refine ⟨hqueue, ?_, fun y => ?_, fun y hy => ?_, fun y => ?_,
    hI.known_snoc hlength fun y hy => ?_, hgrown⟩
  · rw [hcount, if_neg hxe]
    exact hI.same
  · have hbehind := hI.behind y
    rw [hcount, turns_snoc, if_neg nofun]
    split <;> omega
  · rw [hcount, turns_snoc, if_neg nofun]
    split
    · exact hI.behind y
    · rename_i hne
      exact hI.ran y (hy.of_snoc fun _ _ _ heq => hne (by cases heq; rfl))
  · rw [turns_snoc, if_neg nofun]
    exact hI.bound y
  · cases hy

omit [TinyInst] [DecidableEq τ] [Fintype τ] in
/-- Any other step.  If it hands out an entry, that one was run since its last hand-out and
has had no more fruitless runs than the one that waits. -/
theorem Waits.other {before : ℕ → ℕ} {start : ℕ} {tr' : List (Event τ)} {event : Event τ} {e : ℕ}
    {f f' : Shared} (hI : Waits before start tr tr' e f)
    (hother : ∀ t x result hasNew, event ≠ .returned t (.fuzz x) result hasNew)
    (hruns : ∀ x, event.fuzzed = some x → RanSince tr' x)
    (hleast : ∀ x, event.fuzzed = some x → x < f'.allEntries.length ∧
      fruitless before (tr ++ tr') x ≤ fruitless before (tr ++ tr') e)
    (hqueue : e ∈ f'.sampleQueue) (hlength : f.allEntries.length ≤ f'.allEntries.length)
    (hgrown : f'.allEntries.length = start + pushes (tr' ++ [event])) :
    Waits before start tr (tr' ++ [event]) e f' := by
  have hcount : ∀ y, fruitless before (tr ++ (tr' ++ [event])) y = fruitless before (tr ++ tr') y :=
    fun y => by rw [← List.append_assoc, fruitless_snoc, countFruitless_eq hother]
  refine ⟨hqueue, (hcount e).trans hI.same, fun y => ?_, fun y hy => ?_, fun y => ?_,
    hI.known_snoc hlength fun y hy => (hleast y hy).1, hgrown⟩
  · rw [hcount, turns_snoc]
    split
    · rename_i hy
      have hran := hI.ran y (hruns y hy)
      omega
    · exact hI.behind y
  · rw [hcount, turns_snoc, if_neg fun hf => not_ranSince hf hy]
    exact hI.ran y (hy.of_snoc fun u result hasNew => hother u y result hasNew)
  · rw [turns_snoc]
    split
    · rename_i hy
      have hran := hI.ran y (hruns y hy)
      have hle := (hleast y hy).2
      have hsame := hI.same
      omega
    · exact hI.bound y

/-- The step that keeps it.  While an entry waits, every hand-out of another one but its
first follows a fruitless run of it, which brings it nearer to the entry that waits; once it
has had as many fruitless runs, and one more, it is behind it in the queue. -/
theorem Waits.step {tr' : List (Event τ)} {s'' : System τ μ} {e : ℕ} {event : Event τ}
    (hdisk : DiskRuns disk files saved)
    (hrun : Run (Step cfg) (System.init restore inputs disk files) (tr ++ tr') s')
    (hfew : fruitless (baseRuns restore saved) tr e < 2 ^ 53)
    {start : ℕ} (hI : Waits (baseRuns restore saved) start tr tr' e s'.shared)
    (h : Step cfg s' event s'')
    (hnot : event.fuzzed ≠ some e) (hquiet : ∀ t x result, event ≠ .returned t (.fuzz x) result true)
    (hruns : ∀ x, event.fuzzed = some x → RanSince tr' x) :
    Waits (baseRuns restore saved) start tr (tr' ++ [event]) e s''.shared := by
  have hqueue := h.mem_queue hrun hI.queue hnot
  have hgrown : s''.shared.allEntries.length = start + pushes (tr' ++ [event]) :=
    h.grown hrun hI.queue hI.grown
  have hlength : s'.shared.allEntries.length ≤ s''.shared.allEntries.length := by
    refine not_lt.1 fun hlt => ?_
    obtain ⟨entry', hentry', -⟩ := h.entries_kept hrun (List.getElem?_eq_getElem hlt)
    exact absurd (List.getElem?_eq_some_iff.1 hentry').1 (lt_irrefl _)
  by_cases hret : ∃ u x result hasNew, event = .returned u (.fuzz x) result hasNew
  · -- a fruitless run of an entry that is in a job, and so not of the one that waits
    obtain ⟨u, x, result, hasNew, rfl⟩ := hret
    cases hasNew with
    | true => exact absurd rfl (hquiet u x result)
    | false =>
        have hxe : x ≠ e := by
          rintro rfl
          have hpos := countThreads_pos h.holds_of_returned
          exact ((CorpusOk.run hdisk.disk.counts hrun).conserved.of_held hpos).1 hI.queue
        exact hI.returned hxe u result hqueue hlength hgrown
  · refine hI.other (fun t x result hasNew heq => hret ⟨t, x, result, hasNew, heq⟩) hruns
      (fun x hx => ?_) hqueue hlength hgrown
    -- the entry is handed out, so it has had no more fruitless runs than the one that waits
    obtain ⟨t, choices, rfl⟩ := Event.eq_of_fuzzed hx
    obtain ⟨⟨entry, hentry⟩, hentries⟩ := h.handed hdisk hrun
    obtain ⟨entry', hentry'⟩ := hentries e hqueue
    have hleast := h.least hdisk hrun hqueue hentry hentry'
    have hsame := hI.same
    exact ⟨(List.getElem?_eq_some_iff.1 hentry).1, by omega⟩

/-- **No entry is starved**, in any session: while an entry is in the queue, and as long as
fuzzing finds no new coverage and every FUZZ job runs the target at least once, any other
entry gets at most as many turns as the fruitless runs that it has had fewer than the waiting
one, and one more.  So the number of FUZZ jobs that are handed out before its own is bounded
by a sum over the corpus at the beginning, which is fixed, and by as many turns for each entry
that joins the corpus meanwhile as a new entry can have. -/
theorem waits_boundedly {tr' : List (Event τ)} {e : ℕ} (hdisk : DiskRuns disk files saved)
    (hrun : Run (Step cfg) (System.init restore inputs disk files) tr s)
    (hwait : Run (Step cfg) s tr' s') (he : e ∈ s.shared.sampleQueue) (hnot : turns tr' e = 0)
    (hfew : fruitless (baseRuns restore saved) tr e < 2 ^ 53)
    (hquiet : ∀ t x result, .returned t (.fuzz x) result true ∉ tr') (hruns : RunsEachTurn tr') :
    (∀ x, turns tr' x ≤ fruitless (baseRuns restore saved) tr e + 1 -
        fruitless (baseRuns restore saved) tr x) ∧
      fuzzJobs tr' ≤ (∑ x ∈ (Finset.range s.shared.allEntries.length).erase e,
        (fruitless (baseRuns restore saved) tr e + 1 - fruitless (baseRuns restore saved) tr x)) +
        pushes tr' * (fruitless (baseRuns restore saved) tr e + 1) := by
  have hwaits : Waits (baseRuns restore saved) s.shared.allEntries.length tr tr' e s'.shared := by
    induction hwait with
    | refl =>
        refine ⟨he, by rw [List.append_nil], fun x => ?_, fun x _ => ?_, fun x => Nat.zero_le _, nofun,
          rfl⟩
        · rw [List.append_nil]
          exact Nat.le_succ _
        · rw [List.append_nil]
          exact le_rfl
    | @snoc tr' s' event s'' hmid hstep ih =>
        have hturns := hnot
        rw [turns_snoc, Nat.add_eq_zero_iff] at hturns
        refine (ih hturns.1 (fun t x result hmem => ?_) fun a t choices x b heq => ?_).step hdisk
          (hrun.trans hmid) hfew hstep (fun hf => ?_) (fun t x result heq => ?_) fun x hf => ?_
        · exact hquiet t x result (List.mem_append_left _ hmem)
        · exact hruns a t choices x (b ++ [event]) (by rw [heq]; simp)
        · rw [if_pos hf] at hturns
          exact absurd hturns.2 (by decide)
        · exact hquiet t x result (List.mem_append_right _ (by rw [heq]; exact List.mem_singleton_self _))
        · obtain ⟨t, choices, rfl⟩ := Event.eq_of_fuzzed hf
          exact hruns tr' t choices x [] rfl
  refine ⟨hwaits.bound, ?_⟩
  -- the turns of the entries there were, and those of the entries that joined
  rw [fuzzJobs_eq hwaits.known, hwaits.grown, Finset.sum_range_add,
    ← Finset.sum_erase (Finset.range s.shared.allEntries.length) hnot]
  refine Nat.add_le_add (Finset.sum_le_sum fun x _ => hwaits.bound x) ?_
  have hjoined := Finset.sum_le_card_nsmul (Finset.range (pushes tr'))
    (fun x => turns tr' (s.shared.allEntries.length + x)) (fruitless (baseRuns restore saved) tr e + 1)
    fun x _ => (hwaits.bound _).trans (Nat.sub_le _ _)
  rw [Finset.card_range] at hjoined
  exact hjoined

end

section

attribute [local instance] listTinyInst

/-- Another input file. -/
def otherInput : Sample := Sample.init (str "B")

/-- Both input files become entries; a thread is handed the second and runs it without
success, and the next hand-out comes with a save.  In the session that restores what was saved
the first hand-out is the first entry. -/
theorem run_saved : ∃ (tr : List (Event Bool)) (s s' s'' : System Bool SimpleTrimmerContext),
    Run (Step sessionConfig) (System.init false [sessionInput, otherInput] none fun _ => none) tr s ∧
    tr.any Event.saveDue = false ∧ s.shared.state = .fuzzing ∧
    fruitless (fun _ => 0) tr 0 = 0 ∧ fruitless (fun _ => 0) tr 1 = 1 ∧
    Step sessionConfig s (.gotJob false (chosen true []) (.fuzz 0)) s' ∧
    Step sessionConfig (System.init true [] s'.shared.stateDat s'.shared.sampleFiles)
      (.gotJob true (chosen false []) (.fuzz 0)) s'' ∧ s''.shared.sampleQueue = #[1] :=
  ⟨_, _, _, _, Run.cons (Step.getJob (t := false) (chosen false []) rfl rfl)
    (Run.cons (Step.thread (t := false) (.process rfl rfl))
    (Run.cons (Step.thread (t := false) (.firstRun (reaches 1) rfl))
    (Run.cons (Step.interesting (t := false) rfl rfl)
    (Run.cons (Step.thread (t := false) (.report rfl))
    (Run.cons (Step.number (t := false) rfl)
    (Run.cons (Step.create (t := false) rfl)
    (Run.cons (Step.push (t := false) rfl)
    (Run.cons (Step.thread (t := false) (.finish rfl))
    (Run.cons (Step.thread (t := false) (.processed rfl rfl))
    (Run.cons (Step.done (t := false) rfl)
    (Run.cons (Step.getJob (t := false) (chosen false []) rfl rfl)
    (Run.cons (Step.thread (t := false) (.process rfl rfl))
    (Run.cons (Step.thread (t := false) (.firstRun (reaches 2) rfl))
    (Run.cons (Step.interesting (t := false) rfl rfl)
    (Run.cons (Step.thread (t := false) (.report rfl))
    (Run.cons (Step.number (t := false) rfl)
    (Run.cons (Step.create (t := false) rfl)
    (Run.cons (Step.push (t := false) rfl)
    (Run.cons (Step.thread (t := false) (.finish rfl))
    (Run.cons (Step.thread (t := false) (.processed rfl rfl))
    (Run.cons (Step.done (t := false) rfl)
    (Run.cons (Step.getJob (t := true) (chosen false []) rfl rfl)
    (Run.cons (Step.thread (t := true) (.mutate (Sample.init (str "C")) rfl rfl (by decide)))
    (Run.cons (Step.thread (t := true) (.firstRun (reaches 1) rfl))
    (Run.cons (Step.interesting (t := true) rfl rfl)
    (Run.cons (Step.thread (t := true) (.finish rfl))
    (Run.cons (Step.adjust (t := true) rfl rfl rfl)
    (Run.cons (Step.thread (t := true) (.mutateDone rfl rfl))
    (Run.single (Step.done (t := true) rfl)))))))))))))))))))))))))))))),
    rfl, rfl, rfl, rfl, Step.getJob (t := false) (chosen true []) rfl rfl,
    Step.getJob (t := true) (chosen false []) rfl rfl, rfl⟩

/-- The restored session hands out the entry without a fruitless run, before the one that
had one in the session before.  Both entries were saved by that session, with the priorities
of the moment.  -/
theorem fuzzes_least_fruitless_two : ∃ (disk : Option SavedState) (files : ℕ → Option Sample)
    (saved : ℕ → ℕ) (s : System Bool SimpleTrimmerContext),
    DiskRuns disk files saved ∧ saved 0 = 0 ∧ saved 1 = 1 ∧
    Step sessionConfig (System.init true [] disk files) (.gotJob true (chosen false []) (.fuzz 0)) s ∧
    ∃ entry, s.shared.allEntries[0]? = some entry ∧ ∃ entry', s.shared.allEntries[1]? = some entry' ∧
      (min (fruitless (baseRuns true saved) ([] : List (Event Bool)) 0) (2 ^ 53) <
          min (fruitless (baseRuns true saved) ([] : List (Event Bool)) 1) (2 ^ 53) ∨
        (min (fruitless (baseRuns true saved) ([] : List (Event Bool)) 0) (2 ^ 53) =
            min (fruitless (baseRuns true saved) ([] : List (Event Bool)) 1) (2 ^ 53) ∧
          entry'.sampleIndex ≤ entry.sampleIndex)) := by
  obtain ⟨tr, s, s', s'', hrun, hdue, hstate, hzero, hone, hsave, hnext, hqueue⟩ := run_saved
  have hbegan : RunsSaved sessionConfig _ (baseRuns false fun _ => 0) (fun _ => 0) tr s fun _ => 0 :=
    .of_run hrun hdue
  have hruns := hbegan.save hsave ⟨_, _, _, rfl, hstate, rfl⟩
  have hdisk := DiskRuns.session sessionConfig (.fresh fun _ => none) hruns
  obtain ⟨entry, hentry, hleast⟩ := fuzzes_least_fruitless hdisk Run.refl hnext
  exact ⟨_, _, _, s'', hdisk, hzero, hone, hnext, entry, hentry, hleast 1 (by simp [hqueue])⟩

/-- A FUZZ job found new coverage. -/
def Event.fruitful : Event τ → Bool
  | .returned _ (.fuzz _) _ hasNewCoverage => hasNewCoverage
  | _ => false

/-- Entries that are handed out once are run each turn. -/
theorem runsEachTurn_of_nodup {tr : List (Event τ)} (h : (tr.filterMap Event.fuzzed).Nodup) :
    RunsEachTurn tr := by
  rintro a t choices e b rfl a₁ t₁ choices₁ b₁ rfl
  rw [List.filterMap_append, List.filterMap_append] at h
  have hdisjoint := (List.nodup_append.1 h).2.2
  exact absurd rfl (hdisjoint e (List.mem_append_right _ List.mem_cons_self) e List.mem_cons_self)

/-- Both input files are entries, and the second is at the top of the queue.  A thread is
handed it and runs it without success; then a sample of the server becomes an entry, and is
handed out too. -/
theorem run_waits : ∃ (tr tr' : List (Event Bool)) (s s' : System Bool SimpleTrimmerContext),
    Run (Step sessionConfig) (System.init false [sessionInput, otherInput] none fun _ => none) tr s ∧
    Run (Step sessionConfig) s tr' s' ∧ s.shared.sampleQueue = #[1, 0] ∧
    s.shared.allEntries.length = 2 ∧ fruitless (fun _ => 0) tr 0 = 0 ∧
    fruitless (fun _ => 0) tr 1 = 0 ∧ tr'.filterMap Event.fuzzed = [1, 2] ∧ turns tr' 0 = 0 ∧
    fuzzJobs tr' = 2 ∧ pushes tr' = 1 ∧ tr'.any Event.fruitful = false :=
  ⟨_, _, _, _, Run.cons (Step.getJob (t := false) (chosen false []) rfl rfl)
    (Run.cons (Step.thread (t := false) (.process rfl rfl))
    (Run.cons (Step.thread (t := false) (.firstRun (reaches 1) rfl))
    (Run.cons (Step.interesting (t := false) rfl rfl)
    (Run.cons (Step.thread (t := false) (.report rfl))
    (Run.cons (Step.number (t := false) rfl)
    (Run.cons (Step.create (t := false) rfl)
    (Run.cons (Step.push (t := false) rfl)
    (Run.cons (Step.thread (t := false) (.finish rfl))
    (Run.cons (Step.thread (t := false) (.processed rfl rfl))
    (Run.cons (Step.done (t := false) rfl)
    (Run.cons (Step.getJob (t := false) (chosen false []) rfl rfl)
    (Run.cons (Step.thread (t := false) (.process rfl rfl))
    (Run.cons (Step.thread (t := false) (.firstRun (reaches 2) rfl))
    (Run.cons (Step.interesting (t := false) rfl rfl)
    (Run.cons (Step.thread (t := false) (.report rfl))
    (Run.cons (Step.number (t := false) rfl)
    (Run.cons (Step.create (t := false) rfl)
    (Run.cons (Step.push (t := false) rfl)
    (Run.cons (Step.thread (t := false) (.finish rfl))
    (Run.cons (Step.thread (t := false) (.processed rfl rfl))
    (Run.single (Step.done (t := false) rfl)))))))))))))))))))))),
    Run.cons (Step.getJob (t := true) (chosen false []) rfl rfl)
    (Run.cons (Step.thread (t := true) (.mutate (Sample.init (str "C")) rfl rfl (by decide)))
    (Run.cons (Step.thread (t := true) (.firstRun (reaches 1) rfl))
    (Run.cons (Step.interesting (t := true) rfl rfl)
    (Run.cons (Step.thread (t := true) (.finish rfl))
    (Run.cons (Step.adjust (t := true) rfl rfl rfl)
    (Run.cons (Step.getJob (t := false)
      ⟨false, true, [Sample.init (str "D")], some 2, Sample.empty⟩ rfl rfl)
    (Run.cons (Step.thread (t := false) (.process rfl rfl))
    (Run.cons (Step.thread (t := false) (.firstRun (reaches 3) rfl))
    (Run.cons (Step.interesting (t := false) rfl rfl)
    (Run.cons (Step.thread (t := false) (.report rfl))
    (Run.cons (Step.number (t := false) rfl)
    (Run.cons (Step.create (t := false) rfl)
    (Run.cons (Step.push (t := false) rfl)
    (Run.cons (Step.thread (t := false) (.finish rfl))
    (Run.cons (Step.thread (t := false) (.processed rfl rfl))
    (Run.cons (Step.done (t := false) rfl)
    (Run.single (Step.getJob (t := false) (chosen false []) rfl rfl)))))))))))))))))),
    rfl, rfl, rfl, rfl, rfl, rfl, rfl, rfl, rfl⟩

/-- Two jobs go to other entries before it, and that is the bound: one to the entry that was
there, one to the entry that joined while it waited.  -/
theorem waits_boundedly_two : ∃ (tr tr' : List (Event Bool)) (s s' : System Bool SimpleTrimmerContext),
    Run (Step sessionConfig) s tr' s' ∧ 0 ∈ s.shared.sampleQueue ∧ fuzzJobs tr' = 2 ∧ pushes tr' = 1 ∧
    fuzzJobs tr' ≤ (∑ x ∈ (Finset.range s.shared.allEntries.length).erase 0,
      (fruitless (baseRuns false fun _ => 0) tr 0 + 1 - fruitless (baseRuns false fun _ => 0) tr x)) +
      pushes tr' * (fruitless (baseRuns false fun _ => 0) tr 0 + 1) := by
  obtain ⟨tr, tr', s, s', hrun, hwait, hqueue, hlength, hzero, hone, hfuzzed, hnot, hjobs, hpushes,
    hfruitful⟩ := run_waits
  have hmem : 0 ∈ s.shared.sampleQueue := by simp [hqueue]
  refine ⟨tr, tr', s, s', hwait, hmem, hjobs, hpushes,
    (waits_boundedly (.fresh _) hrun hwait hmem hnot ?_ (fun t x result hreturned => ?_) ?_).2⟩
  · exact lt_of_eq_of_lt hzero (by decide)
  · exact List.any_eq_false.1 hfruitful _ hreturned rfl
  · exact runsEachTurn_of_nodup (by rw [hfuzzed]; decide)

end

end Fuzzer
end Jackalope
