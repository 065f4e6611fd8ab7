/-
# Which entries are given up

`FuzzJob` counts the runs of its entry, those that find new coverage, the hangs and the
crashes, without a mutex, and gives the entry up after a run at which it has had too many of
the last two.  `JobDone` then discards it.

The counters are those of the runs (`discards_failing`), because no two threads have one entry;
an entry is discarded if it was saved so, or was given up after one of its runs and the job is
done, and for no other reason.  No thread is handed it again, and none runs it: not even the
one that gave it up.
-/

import Jackalope.Fuzzer.Fairness
import Jackalope.Fuzzer.Progress

namespace Jackalope
namespace Fuzzer

open Foundation

variable {τ μ : Type}

/-! ### Counting runs -/

/-- What `FuzzJob` counts of the runs of an entry. -/
structure Tally where
  numRuns : ℕ
  numNewcoverage : ℕ
  numHangs : ℕ
  numCrashes : ℕ
  deriving DecidableEq

def SampleQueueEntry.tally (entry : SampleQueueEntry) : Tally :=
  ⟨entry.numRuns, entry.numNewcoverage, entry.numHangs, entry.numCrashes⟩

/-- The tally of an entry that has not been run. -/
def Tally.zero : Tally := ⟨0, 0, 0, 0⟩

/-- `tooManyFailures`, of which only the counters matter. -/
def Tally.failsTooOften (cfg : Config μ) (c : Tally) : Bool :=
  (decide (c.numHangs > 10) && cfg.overHangRatio c.numHangs c.numRuns) ||
    (decide (c.numCrashes > 100) && cfg.overCrashRatio c.numCrashes c.numRuns)

/-- How many runs of the entry there were of a kind. -/
def runsOf (tr : List (Event τ)) (e : ℕ) (p : RunResult → Bool → Bool) : ℕ :=
  tr.countP fun event =>
    match event with
    | .returned _ (.fuzz e') result hasNewCoverage => decide (e' = e) && p result hasNewCoverage
    | _ => false

/-- What there is to count, given what had been counted before this session. -/
def tally (before : ℕ → Tally) (tr : List (Event τ)) (e : ℕ) : Tally where
  numRuns := (before e).numRuns + runsOf tr e fun _ _ => true
  numNewcoverage := (before e).numNewcoverage + runsOf tr e fun _ hasNewCoverage => hasNewCoverage
  numHangs := (before e).numHangs + runsOf tr e fun result _ => decide (result = .hang)
  numCrashes := (before e).numCrashes + runsOf tr e fun result _ => decide (result = .crash)

/-- What `state.dat` has of an entry, if it is read. -/
def savedEntry (restore : Bool) (disk : Option SavedState) (e : ℕ) : Option SampleQueueEntry :=
  if restore then disk.bind fun saved => saved.entries[e]? else none

/-- What had been counted before. -/
def savedTally (restore : Bool) (disk : Option SavedState) (e : ℕ) : Tally :=
  (savedEntry restore disk e).elim .zero SampleQueueEntry.tally

/-- The entry was saved as a discarded one. -/
def SavedDiscarded (restore : Bool) (disk : Option SavedState) (e : ℕ) : Prop :=
  ∃ entry, savedEntry restore disk e = some entry ∧ entry.discarded = 1

section Tally

variable {before : ℕ → Tally} {tr : List (Event τ)} {event : Event τ} {e : ℕ}

/-- One event more, counted on its own.  -/
theorem runsOf_snoc (tr : List (Event τ)) (event : Event τ) (e : ℕ) (p : RunResult → Bool → Bool) :
    runsOf (tr ++ [event]) e p = runsOf tr e p + runsOf [event] e p := List.countP_append

/-- Only a `RunSample` that returns in a FUZZ job of the entry is a run over it.  -/
theorem runsOf_eq_zero (h : ∀ t result hasNew, event ≠ .returned t (.fuzz e) result hasNew)
    (p : RunResult → Bool → Bool) : runsOf [event] e p = 0 := by
  refine List.countP_eq_zero.2 fun event' hmem => ?_
  rw [List.mem_singleton.1 hmem]
  cases event with
  | returned t job result hasNew =>
      cases job with
      | fuzz e' =>
          rcases eq_or_ne e' e with rfl | hne
          · exact absurd rfl (h t result hasNew)
          · simp [hne]
      | processSample | wait => exact Bool.false_ne_true
  | _ => exact Bool.false_ne_true

/-- Steps that do not run the entry leave its tally. -/
theorem tally_snoc_of_ne (h : ∀ t result hasNew, event ≠ .returned t (.fuzz e) result hasNew) :
    tally before (tr ++ [event]) e = tally before tr e := by
  simp only [tally, runsOf_snoc, runsOf_eq_zero h, Nat.add_zero]

/-- A run counts as `FuzzJob` counts it: one run, and one hang, crash or find of new
coverage if it was one.  -/
theorem tally_snoc_returned {entry : SampleQueueEntry} (h : entry.tally = tally before tr e) (t : τ)
    (result : RunResult) (hasNew : Bool) :
    (recordRun entry result hasNew).tally =
      tally before (tr ++ [.returned t (.fuzz e) result hasNew]) e := by
  have hone : ∀ p : RunResult → Bool → Bool,
      runsOf [Event.returned t (.fuzz e) result hasNew] e p = if p result hasNew then 1 else 0 := by
    intro p
    cases hp : p result hasNew <;> simp [runsOf, hp]
  simp only [SampleQueueEntry.tally, tally, Tally.mk.injEq] at h
  obtain ⟨hruns, hnew, hhangs, hcrashes⟩ := h
  simp only [tally, runsOf_snoc, hone, ← Nat.add_assoc, ← hruns, ← hnew, ← hhangs, ← hcrashes]
  cases result <;> cases hasNew <;> rfl

/-- The condition of the source, which reads the counters of the entry, is the one on its
tally.  -/
theorem failsTooOften_tally (cfg : Config μ) (entry : SampleQueueEntry) :
    entry.tally.failsTooOften cfg = tooManyFailures cfg entry := rfl

end Tally

/-! ### Giving up -/

/-- In this session the thread has given the entry up after a run. -/
def GivenUp (cfg : Config μ) (before : ℕ → Tally) (tr : List (Event τ)) (t : τ) (e : ℕ) : Prop :=
  ∃ tr₁ result hasNew tr₂, tr = tr₁ ++ .returned t (.fuzz e) result hasNew :: tr₂ ∧
    (tally before (tr₁ ++ [.returned t (.fuzz e) result hasNew]) e).failsTooOften cfg = true

/-- A thread has given the entry up, and its job is done. -/
def Discards (cfg : Config μ) (before : ℕ → Tally) (tr : List (Event τ)) (e : ℕ) : Prop :=
  ∃ t tr₁ tr₂, tr = tr₁ ++ .done t (.fuzz e) :: tr₂ ∧ GivenUp cfg before tr₁ t e

section GivenUp

variable {cfg : Config μ} {before : ℕ → Tally} {tr : List (Event τ)} {event : Event τ} {t : τ} {e : ℕ}

/-- A thread gives an entry up with a run that returns, if the counts after it are too bad;
that stays so until it has the next job.  -/
theorem givenUp_snoc : GivenUp cfg before (tr ++ [event]) t e ↔
    GivenUp cfg before tr t e ∨ ∃ result hasNew, event = .returned t (.fuzz e) result hasNew ∧
      (tally before (tr ++ [event]) e).failsTooOften cfg = true := by
  constructor
  · rintro ⟨tr₁, result, hasNew, tr₂, hsplit, hfails⟩
    rcases trace_split_snoc.1 hsplit with ⟨rfl, rfl, rfl⟩ | ⟨tr₂, rfl, rfl⟩
    · exact Or.inr ⟨result, hasNew, rfl, hfails⟩
    · exact Or.inl ⟨tr₁, result, hasNew, tr₂, rfl, hfails⟩
  · rintro (⟨tr₁, result, hasNew, tr₂, rfl, hfails⟩ | ⟨result, hasNew, rfl, hfails⟩)
    · exact ⟨tr₁, result, hasNew, tr₂ ++ [event], by simp, hfails⟩
    · exact ⟨tr, result, hasNew, [], rfl, hfails⟩

/-- An entry is discarded with the `JobDone` of the thread that gave it up.  -/
theorem discards_snoc : Discards cfg before (tr ++ [event]) e ↔
    Discards cfg before tr e ∨ ∃ t, event = .done t (.fuzz e) ∧ GivenUp cfg before tr t e := by
  constructor
  · rintro ⟨t, tr₁, tr₂, hsplit, hgiven⟩
    rcases trace_split_snoc.1 hsplit with ⟨rfl, rfl, rfl⟩ | ⟨tr₂, rfl, rfl⟩
    · exact Or.inr ⟨t, rfl, hgiven⟩
    · exact Or.inl ⟨t, tr₁, tr₂, rfl, hgiven⟩
  · rintro (⟨t, tr₁, tr₂, rfl, hgiven⟩ | ⟨t, rfl, hgiven⟩)
    · exact ⟨t, tr₁, tr₂ ++ [event], by simp, hgiven⟩
    · exact ⟨t, tr, [], rfl, hgiven⟩

/-- Any other event gives no entry up.  -/
theorem givenUp_snoc_of_ne (h : ∀ result hasNew, event ≠ .returned t (.fuzz e) result hasNew) :
    GivenUp cfg before (tr ++ [event]) t e ↔ GivenUp cfg before tr t e :=
  givenUp_snoc.trans (or_iff_left fun ⟨result, hasNew, heq, _⟩ => h result hasNew heq)

/-- Any other event discards no entry.  -/
theorem discards_snoc_of_ne (h : ∀ t, event ≠ .done t (.fuzz e)) :
    Discards cfg before (tr ++ [event]) e ↔ Discards cfg before tr e :=
  discards_snoc.trans (or_iff_left fun ⟨t, heq, _⟩ => h t heq)

/-- What is discarded was given up. -/
theorem Discards.givenUp (h : Discards cfg before tr e) : ∃ t, GivenUp cfg before tr t e := by
  obtain ⟨t, tr₁, tr₂, rfl, tr₃, result, hasNew, tr₄, rfl, hfails⟩ := h
  exact ⟨t, tr₃, result, hasNew, tr₄ ++ .done t (.fuzz e) :: tr₂, by simp, hfails⟩

end GivenUp

/-! ### The entries of a session -/

/-- **The counters and the marks of the entries are those of the trace**, and a thread that has
given its entry up does nothing else with it. -/
structure Judged (cfg : Config μ) (before : ℕ → Tally) (gone : ℕ → Prop) (tr : List (Event τ))
    (s : System τ μ) : Prop where
  known : ∀ (e : ℕ) (entry : SampleQueueEntry), s.shared.allEntries[e]? = some entry →
    entry.tally = tally before tr e ∧ (entry.discarded = 1 ↔ gone e ∨ Discards cfg before tr e)
  new : s.shared.state ≠ .restoreNeeded → ∀ e : ℕ, s.shared.allEntries[e]? = none →
    tally before tr e = .zero ∧ ¬ gone e ∧ ∀ t, ¬ GivenUp cfg before tr t e
  givenUp : ∀ t e, GivenUp cfg before tr t e → Discards cfg before tr e ∨
    ((s.threads t).pc = .jobDone ∧ (s.threads t).job = .fuzz e ∧ (s.threads t).discardSample = true)
  failing : ∀ t e, (s.threads t).job = .fuzz e → (s.threads t).discardSample = true →
    ((s.threads t).pc = .jobDone ∨ (s.threads t).pc = .synchronize) ∧ GivenUp cfg before tr t e

/-- Events of other kinds than those that count. -/
def Event.Neutral : Event τ → Prop
  | .returned _ (.fuzz _) _ _ | .done _ (.fuzz _) => False
  | _ => True

section Judged

variable {cfg : Config μ} {before : ℕ → Tally} {gone : ℕ → Prop} {tr : List (Event τ)} {event : Event τ}
  {s s' : System τ μ}

/-- The events that change no counter are not those of a run that returns.  -/
theorem Event.Neutral.ne_returned (h : event.Neutral) (t : τ) (e : ℕ) (result : RunResult) (hasNew : Bool) :
    event ≠ .returned t (.fuzz e) result hasNew := by
  rintro rfl
  exact h

/-- Nor are they those of a job that is done.  -/
theorem Event.Neutral.ne_done (h : event.Neutral) (t : τ) (e : ℕ) : event ≠ .done t (.fuzz e) := by
  rintro rfl
  exact h

/-- A neutral step keeps it if the entries that were there are kept, and a thread that goes on
has not given anything up. -/
theorem Judged.neutral (hI : Judged cfg before gone tr s) (hevent : event.Neutral)
    (hstate : s.shared.state ≠ .restoreNeeded)
    (hentries : ∀ (e : ℕ) (entry : SampleQueueEntry), s'.shared.allEntries[e]? = some entry →
      s.shared.allEntries[e]? = some entry ∨
        (s.shared.allEntries[e]? = none ∧ entry.tally = .zero ∧ entry.discarded = 0))
    (hkept : ∀ e : ℕ, s'.shared.allEntries[e]? = none → s.shared.allEntries[e]? = none)
    (hthreads : ∀ t, s'.threads t = s.threads t ∨
      ((s.threads t).pc ≠ .jobDone ∧ ((s'.threads t).discardSample = false ∨
        ((s.threads t).pc ≠ .synchronize ∧ (s'.threads t).job = (s.threads t).job ∧
          (s'.threads t).discardSample = (s.threads t).discardSample)))) :
    Judged cfg before gone (tr ++ [event]) s' := by
  have htally : ∀ e, tally before (tr ++ [event]) e = tally before tr e := fun e =>
    tally_snoc_of_ne fun t result hasNew => hevent.ne_returned t e result hasNew
  have hgiven : ∀ t e, GivenUp cfg before (tr ++ [event]) t e ↔ GivenUp cfg before tr t e := fun t e =>
    givenUp_snoc_of_ne fun result hasNew => hevent.ne_returned t e result hasNew
  have hdiscards : ∀ e, Discards cfg before (tr ++ [event]) e ↔ Discards cfg before tr e := fun e =>
    discards_snoc_of_ne fun t => hevent.ne_done t e
  refine ⟨fun e entry he => ?_, fun _ e he => ?_, fun t e h => ?_, fun t e hjob hdiscard => ?_⟩
  · rw [htally, hdiscards]
    rcases hentries e entry he with he | ⟨hnone, hzero, hnot⟩
    · exact hI.known e entry he
    · obtain ⟨htally₀, hgone, hnever⟩ := hI.new hstate e hnone
      refine ⟨hzero.trans htally₀.symm, iff_of_false (by omega) ?_⟩
      rintro (h | h)
      · exact hgone h
      · obtain ⟨t, ht⟩ := h.givenUp
        exact hnever t ht
  · rw [htally]
    obtain ⟨htally₀, hgone, hnever⟩ := hI.new hstate e (hkept e he)
    exact ⟨htally₀, hgone, fun t ht => hnever t ((hgiven t e).1 ht)⟩
  · rw [hdiscards]
    rcases hI.givenUp t e ((hgiven t e).1 h) with h | ⟨hpc, hjob, hdiscard⟩
    · exact Or.inl h
    · rcases hthreads t with hsame | ⟨hne, -⟩
      · rw [hsame]
        exact Or.inr ⟨hpc, hjob, hdiscard⟩
      · exact absurd hpc hne
  · rw [hgiven]
    rcases hthreads t with hsame | ⟨hne, hfalse | ⟨hne', hjob', hdiscard'⟩⟩
    · rw [hsame] at hjob hdiscard ⊢
      exact hI.failing t e hjob hdiscard
    · exact absurd (hfalse.symm.trans hdiscard) Bool.false_ne_true
    · rw [hjob'] at hjob
      rw [hdiscard'] at hdiscard
      rcases (hI.failing t e hjob hdiscard).1 with hpc | hpc
      · exact absurd hpc hne
      · exact absurd hpc hne'

variable [TinyInst]

/-- What a thread does on its own is neutral: it records no run and finishes no job, and
leaves `discardSample` as it is.  -/
theorem LocalStep.neutral {t : τ} {th th' : Thread μ} (h : LocalStep cfg t th event th') :
    event.Neutral ∧ th.pc ≠ .jobDone ∧ th'.discardSample = th.discardSample := by
  cases h with
  | wait hpc | process hpc | mutateDone hpc | mutateTooLarge _ hpc | mutate _ hpc | firstRun _ hpc
  | retry _ hpc | minimizeDone hpc | minimize _ hpc | report hpc | saveRanges _ hpc | finish hpc =>
      exact ⟨trivial, by rw [hpc]; exact nofun, rfl⟩
  | processed hpc hjob =>
      rw [hjob]
      exact ⟨trivial, by rw [hpc]; exact nofun, rfl⟩

omit [TinyInst] in
/-- Threads but one are as they were. -/
theorem System.setThread_or [DecidableEq τ] (s : System τ μ) (t : τ) (th : Thread μ) (u : τ) :
    (u = t ∧ (s.setThread t th).threads u = th) ∨ (s.setThread t th).threads u = s.threads u := by
  rw [System.setThread_threads]
  split
  · exact Or.inl ⟨by assumption, rfl⟩
  · exact Or.inr rfl

variable [DecidableEq τ]

omit [TinyInst] in
/-- `FuzzJob` after a run: the entry has its counters, and is given up if that is too much.
The run that has just returned is the one more that the counters have; the thread remembers
in `discardSample` that it has given the entry up.  -/
theorem Judged.adjust (hI : Judged cfg before gone tr s) (hstate : s.shared.state ≠ .restoreNeeded) {t : τ}
    {e : ℕ} {entry : SampleQueueEntry} {result : RunResult} {hasNew : Bool}
    (hpc : (s.threads t).pc = .returned result hasNew) (hjob : (s.threads t).job = .fuzz e)
    (hentry : s.shared.allEntries[e]? = some entry) :
    Judged cfg before gone (tr ++ [.returned t (.fuzz e) result hasNew])
      { s.setThread t { s.threads t with
          pc := if tooManyFailures cfg (recordRun entry result hasNew) then .jobDone else .working
          discardSample := tooManyFailures cfg (recordRun entry result hasNew) } with
        shared := { s.shared with
          allEntries := s.shared.allEntries.set e (recordRun entry result hasNew) } } := by
  obtain ⟨htally, hdiscarded⟩ := hI.known e entry hentry
  have htally' := tally_snoc_returned htally t result hasNew
  have hlt := (List.getElem?_eq_some_iff.1 hentry).1
  have hother : ∀ x ≠ e, tally before (tr ++ [.returned t (.fuzz e) result hasNew]) x = tally before tr x := by
    intro x hx
    refine tally_snoc_of_ne fun t' result' hasNew' heq => hx ?_
    cases heq
    rfl
  have hdiscards : ∀ x, Discards cfg before (tr ++ [.returned t (.fuzz e) result hasNew]) x ↔
      Discards cfg before tr x := fun x => discards_snoc_of_ne fun t' => nofun
  have hgiven : ∀ u x, GivenUp cfg before (tr ++ [.returned t (.fuzz e) result hasNew]) u x ↔
      GivenUp cfg before tr u x ∨
        (u = t ∧ x = e ∧ tooManyFailures cfg (recordRun entry result hasNew) = true) := by
    intro u x
    rw [givenUp_snoc, ← failsTooOften_tally, htally']
    refine or_congr_right ⟨?_, ?_⟩
    · rintro ⟨result', hasNew', heq, hfails⟩
      cases heq
      exact ⟨rfl, rfl, hfails⟩
    · rintro ⟨rfl, rfl, hfails⟩
      exact ⟨result, hasNew, rfl, hfails⟩
  refine ⟨fun x entry' hx => ?_, fun _ x hx => ?_, fun u x h => ?_, fun u x hu hdiscard => ?_⟩
  · rw [hdiscards]
    have hx' : (s.shared.allEntries.set e (recordRun entry result hasNew))[x]? = some entry' := hx
    rw [List.getElem?_set] at hx'
    split at hx'
    · rename_i heq
      subst heq
      cases hx'
      exact ⟨htally', by rw [(recordRun_same entry result hasNew).2]; exact hdiscarded⟩
    · rename_i hne
      rw [hother x (Ne.symm hne)]
      exact hI.known x entry' hx'
  · have hx' : (s.shared.allEntries.set e (recordRun entry result hasNew))[x]? = none := hx
    rw [List.getElem?_eq_none_iff, List.length_set] at hx'
    have hne : x ≠ e := by omega
    obtain ⟨htally₀, hgone, hnever⟩ := hI.new hstate x (List.getElem?_eq_none hx')
    rw [hother x hne]
    refine ⟨htally₀, hgone, fun u hu => ?_⟩
    rcases (hgiven u x).1 hu with hu | ⟨-, heq, -⟩
    · exact hnever u hu
    · exact hne heq
  · rw [hdiscards]
    show _ ∨ ((s.setThread t _).threads u).pc = .jobDone ∧ _
    rw [System.setThread_threads]
    rcases (hgiven u x).1 h with h | ⟨rfl, rfl, hfails⟩
    · rcases hI.givenUp u x h with h | hdone
      · exact Or.inl h
      · -- the thread that runs the entry has not given it up
        have hne : u ≠ t := by
          rintro rfl
          cases hpc.symm.trans hdone.1
        rw [if_neg hne]
        exact Or.inr hdone
    · rw [if_pos rfl]
      exact Or.inr ⟨if_pos hfails, hjob, hfails⟩
  · rw [hgiven]
    replace hu : ((s.setThread t _).threads u).job = .fuzz x := hu
    replace hdiscard : ((s.setThread t _).threads u).discardSample = true := hdiscard
    show (((s.setThread t _).threads u).pc = .jobDone ∨ _) ∧ _
    rw [System.setThread_threads] at hu hdiscard ⊢
    split at hu
    · rename_i heq
      subst heq
      rw [if_pos rfl] at hdiscard ⊢
      obtain rfl : x = e := by
        have hsame : (s.threads u).job = .fuzz x := hu
        rw [hjob] at hsame
        cases hsame
        rfl
      exact ⟨Or.inl (if_pos hdiscard), Or.inr ⟨rfl, rfl, hdiscard⟩⟩
    · rename_i hne
      rw [if_neg hne] at hdiscard ⊢
      obtain ⟨hpc', hgivenUp⟩ := hI.failing u x hu hdiscard
      exact ⟨hpc', Or.inl hgivenUp⟩

/-- Work keeps it.  No step of a thread between its jobs touches the counters of an entry
but the one after a run of the entry that the thread has, and none marks an entry as
discarded.  -/
theorem Judged.works (hI : Judged cfg before gone tr s) (hstate : s.shared.state ≠ .restoreNeeded)
    (h : Step cfg s event s') (hw : Works s event s') : Judged cfg before gone (tr ++ [event]) s' := by
  -- in these steps one thread goes on, and the entries are the same
  have hsame : ∀ {t : τ} {th : Thread μ} (shared : Shared), event.Neutral →
      shared.allEntries = s.shared.allEntries → (s.threads t).pc ≠ .jobDone →
      (s.threads t).pc ≠ .synchronize → th.job = (s.threads t).job →
      th.discardSample = (s.threads t).discardSample →
      Judged cfg before gone (tr ++ [event]) { s.setThread t th with shared := shared } := by
    intro t th shared hevent hentries hdone hsync hjob hdiscard
    refine hI.neutral hevent hstate (fun e entry he => Or.inl ?_) (fun e he => ?_) fun u => ?_
    · exact hentries ▸ he
    · exact hentries ▸ he
    · rcases s.setThread_or t th u with ⟨rfl, heq⟩ | heq
      · exact Or.inr ⟨hdone, Or.inr ⟨hsync, (congrArg Thread.job heq).trans hjob,
          (congrArg Thread.discardSample heq).trans hdiscard⟩⟩
      · exact Or.inl heq
  cases h with
  | @thread t event th hl =>
      obtain ⟨hneutral, hdone, hdiscard⟩ := hl.neutral
      have hsync : (s.threads t).pc ≠ .synchronize := fun heq => by
        have hin := hl.facts.inJob
        rw [heq] at hin
        cases hin
      exact hsame s.shared hneutral rfl hdone hsync hl.facts.job hdiscard
  | interesting hpc =>
      exact hsame _ trivial rfl (by rw [hpc]; exact nofun) (by rw [hpc]; exact nofun) rfl rfl
  | number hpc => exact hsame _ trivial rfl (by rw [hpc]; exact nofun) (by rw [hpc]; exact nofun) rfl rfl
  | create hpc =>
      exact hsame s.shared trivial rfl (by rw [hpc]; exact nofun) (by rw [hpc]; exact nofun) rfl rfl
  | @push t savingFor sample fileindex sampleIndex hpc =>
      refine hI.neutral trivial hstate (fun e entry he => ?_) (fun e he => ?_) fun u => ?_
      · replace he : (s.shared.allEntries ++ [newEntry sample fileindex sampleIndex])[e]? = some entry := he
        rw [List.getElem?_append] at he
        split at he
        · exact Or.inl he
        · rename_i hge
          obtain rfl : newEntry sample fileindex sampleIndex = entry :=
            (List.mem_singleton.1 (List.mem_of_getElem? he)).symm
          exact Or.inr ⟨List.getElem?_eq_none (Nat.not_lt.1 hge), rfl, rfl⟩
      · replace he : (s.shared.allEntries ++ [newEntry sample fileindex sampleIndex])[e]? = none := he
        rw [List.getElem?_eq_none_iff, List.length_append] at he
        exact List.getElem?_eq_none (le_trans (Nat.le_add_right _ _) he)
      · rcases s.setThread_or t { s.threads t with pc := savingFor.next } u with ⟨rfl, heq⟩ | heq
        · exact Or.inr ⟨by rw [hpc]; exact nofun, Or.inr ⟨by rw [hpc]; exact nofun,
            (congrArg Thread.job heq :), (congrArg Thread.discardSample heq :)⟩⟩
        · exact Or.inl heq
  | @adjust t e entry result hasNew hpc hjob hentry =>
      rw [hjob]
      exact hI.adjust hstate hpc hjob hentry
  | getJob => exact absurd hw.noJob nofun
  | done => exact absurd rfl (hw.notDone _ _)

omit [TinyInst] in
/-- `JobDone` discards an entry if the thread has given it up, and puts it back into the
queue if not, so that an entry is marked exactly when it was given up and its thread is done
with it.  -/
theorem Judged.done (hI : Judged cfg before gone tr s) (hstate : s.shared.state ≠ .restoreNeeded) {t : τ}
    (hpc : (s.threads t).pc = .jobDone) :
    Judged cfg before gone (tr ++ [.done t (s.threads t).job])
      { s.setThread t { s.threads t with pc := .synchronize } with
        shared := jobDone s.shared (s.threads t).job (s.threads t).discardSample } := by
  have htally : ∀ e, tally before (tr ++ [.done t (s.threads t).job]) e = tally before tr e := fun e =>
    tally_snoc_of_ne nofun
  have hgiven : ∀ u e, GivenUp cfg before (tr ++ [.done t (s.threads t).job]) u e ↔
      GivenUp cfg before tr u e := fun u e => givenUp_snoc_of_ne nofun
  have hdiscards : ∀ e, Discards cfg before (tr ++ [.done t (s.threads t).job]) e ↔
      Discards cfg before tr e ∨ ((s.threads t).job = .fuzz e ∧ (s.threads t).discardSample = true) := by
    intro e
    rw [discards_snoc]
    constructor
    · rintro (h | ⟨u, heq, hgivenUp⟩)
      · exact Or.inl h
      · obtain ⟨rfl, hjob⟩ := Event.done.inj heq
        rcases hI.givenUp t e hgivenUp with h | ⟨-, -, hdiscard⟩
        · exact Or.inl h
        · exact Or.inr ⟨hjob, hdiscard⟩
    · rintro (h | ⟨hjob, hdiscard⟩)
      · exact Or.inl h
      · exact Or.inr ⟨t, by rw [hjob], (hI.failing t e hjob hdiscard).2⟩
  -- an entry is marked if the job is one for it and it was given up
  have hentries : ∀ e : ℕ, (jobDone s.shared (s.threads t).job (s.threads t).discardSample).allEntries[e]? =
      (s.shared.allEntries[e]?).map fun entry =>
        if (s.threads t).job = .fuzz e ∧ (s.threads t).discardSample = true then
          { entry with discarded := 1 } else entry := by
    intro e
    cases (s.threads t).job with
    | processSample | wait => simp [jobDone]
    | fuzz x =>
        cases (s.threads t).discardSample with
        | false => simp [jobDone, pushQueue]
        | true => simp [jobDone, List.getElem?_modify]
  refine ⟨fun e entry he => ?_, fun _ e he => ?_, fun u e h => ?_, fun u e hjob hdiscard => ?_⟩
  · rw [htally, hdiscards]
    replace he := (hentries e).symm.trans he
    obtain ⟨entry₀, hentry₀, rfl⟩ := Option.map_eq_some_iff.1 he
    obtain ⟨hcounts, hmark⟩ := hI.known e entry₀ hentry₀
    split
    · rename_i hfailed
      exact ⟨hcounts, iff_of_true rfl (Or.inr (Or.inr hfailed))⟩
    · rename_i hnot
      refine ⟨hcounts, hmark.trans ?_⟩
      rw [or_iff_left (a := Discards cfg before tr e) hnot]
  · rw [htally]
    replace he := (hentries e).symm.trans he
    obtain ⟨hzero, hgone, hnever⟩ := hI.new hstate e (Option.map_eq_none_iff.1 he)
    exact ⟨hzero, hgone, fun u hu => hnever u ((hgiven u e).1 hu)⟩
  · rw [hdiscards]
    rcases hI.givenUp u e ((hgiven u e).1 h) with h | ⟨hpc', hjob, hdiscard⟩
    · exact Or.inl (Or.inl h)
    · rcases s.setThread_or t { s.threads t with pc := .synchronize } u with ⟨rfl, -⟩ | heq
      · exact Or.inl (Or.inr ⟨hjob, hdiscard⟩)
      · refine Or.inr ?_
        show ((s.setThread t _).threads u).pc = _ ∧ ((s.setThread t _).threads u).job = _ ∧ _
        rw [heq]
        exact ⟨hpc', hjob, hdiscard⟩
  · rw [hgiven]
    replace hjob : ((s.setThread t { s.threads t with pc := .synchronize }).threads u).job = .fuzz e := hjob
    replace hdiscard :
      ((s.setThread t { s.threads t with pc := .synchronize }).threads u).discardSample = true := hdiscard
    show (_ ∨ ((s.setThread t _).threads u).pc = _) ∧ _
    rcases s.setThread_or t { s.threads t with pc := .synchronize } u with ⟨rfl, heq⟩ | heq
    · rw [heq] at hjob hdiscard ⊢
      exact ⟨Or.inr rfl, (hI.failing u e hjob hdiscard).2⟩
    · rw [heq] at hjob hdiscard
      obtain ⟨hpc', hgivenUp⟩ := hI.failing u e hjob hdiscard
      refine ⟨?_, hgivenUp⟩
      show ((s.setThread t _).threads u).pc = _ ∨ _
      rw [heq]
      exact hpc'

omit [TinyInst] in
/-- A thread that gets a job begins anew: what it gave up before belongs to an earlier job,
and `discardSample` is false until this one gives up its own entry.  -/
theorem Judged.call (hI : Judged cfg before gone tr s) (hstate : s.shared.state ≠ .restoreNeeded) {t : τ}
    {choices : Choices} {job : Job} {shared : Shared} (hpc : (s.threads t).pc = .synchronize)
    (hjob : synchronizeAndGetJob cfg choices s.shared = some (shared, job)) :
    Judged cfg before gone (tr ++ [.gotJob t choices job])
      { s.setThread t { s.threads t with pc := .working, job := job, discardSample := false } with
        shared := shared } := by
  obtain ⟨f₁, h₁, hentries, -⟩ := synchronizeAndGetJob_entries hjob
  obtain rfl : f₁ = s.shared := by
    rcases restoreIfNeeded_eq h₁ with ⟨-, rfl⟩ | ⟨saved, queue, hs, -⟩
    · rfl
    · exact absurd hs hstate
  refine hI.neutral trivial hstate (fun e entry he => Or.inl ?_) (fun e he => ?_) fun u => ?_
  · exact hentries ▸ he
  · exact hentries ▸ he
  · rcases s.setThread_or t { s.threads t with pc := .working, job := job, discardSample := false } u with
      ⟨rfl, heq⟩ | heq
    · exact Or.inr ⟨by rw [hpc]; exact nofun, Or.inl (congrArg Thread.discardSample heq :)⟩
    · exact Or.inl heq

omit [TinyInst] in
/-- **The first call** restores the counters and the marks that were saved: the tally that
the session begins with is that of `state.dat`, and what was discarded there stays
discarded.  -/
theorem Judged.restored {restore : Bool} {inputs : List Sample} {disk : Option SavedState}
    {files : ℕ → Option Sample} {t : τ} {choices : Choices} {job : Job} {shared : Shared}
    (hs : (System.init restore inputs disk files : System τ μ).shared.state = .restoreNeeded)
    (hjob : synchronizeAndGetJob cfg choices (System.init restore inputs disk files : System τ μ).shared =
      some (shared, job)) :
    Judged cfg (savedTally restore disk) (SavedDiscarded restore disk) [.gotJob t choices job]
      { (System.init restore inputs disk files : System τ μ).setThread t
          { (System.init restore inputs disk files : System τ μ).threads t with
            pc := .working, job := job, discardSample := false } with shared := shared } := by
  cases restore with
  | false => cases hs
  | true =>
      obtain ⟨f₁, h₁, hentries, -⟩ := synchronizeAndGetJob_entries hjob
      rcases restoreIfNeeded_eq h₁ with ⟨hne, -⟩ | ⟨saved, queue, -, hsaved, -, rfl⟩
      · exact absurd hs hne
      obtain rfl : disk = some saved := hsaved
      replace hentries : shared.allEntries = saved.entries.map (loadEntry files) := hentries
      have hnothing : ∀ u e, ¬ GivenUp cfg (savedTally true (some saved)) [Event.gotJob t choices job] u e := by
        rintro u e ⟨_ | ⟨event, tr₁⟩, result, hasNew, tr₂, heq, -⟩
        · cases heq
        · simp at heq
      have hkept : ∀ e : ℕ, tally (savedTally true (some saved)) [Event.gotJob t choices job] e =
          (saved.entries[e]?).elim .zero SampleQueueEntry.tally := fun e =>
        (@tally_snoc_of_ne τ _ [] (.gotJob t choices job) e nofun).trans (by simp [tally, runsOf, savedTally, savedEntry])
      refine ⟨fun e entry he => ?_, fun _ e he => ?_, fun u e h => absurd h (hnothing u e), fun u e _ h => ?_⟩
      · replace he : shared.allEntries[e]? = some entry := he
        rw [hentries, List.getElem?_map] at he
        obtain ⟨entry₀, hentry₀, rfl⟩ := Option.map_eq_some_iff.1 he
        refine ⟨?_, ?_⟩
        · rw [hkept, hentry₀]
          rfl
        · constructor
          · exact fun hmark => Or.inl ⟨entry₀, hentry₀, hmark⟩
          · rintro (⟨entry', hentry', hmark⟩ | h)
            · cases hentry₀.symm.trans hentry'
              exact hmark
            · obtain ⟨u, hu⟩ := h.givenUp
              exact absurd hu (hnothing u e)
      · replace he : shared.allEntries[e]? = none := he
        rw [hentries, List.getElem?_map] at he
        have hnone := Option.map_eq_none_iff.1 he
        refine ⟨?_, ?_, fun u => hnothing u e⟩
        · rw [hkept, hnone]
          rfl
        · rintro ⟨entry', hentry', -⟩
          cases hnone.symm.trans hentry'
      · exfalso
        replace h : (((System.init true inputs (some saved) files : System τ μ).setThread t _).threads
          u).discardSample = true := h
        rw [System.setThread_threads] at h
        split at h <;> cases h

/-- **In every session** the counters and the marks are those of the trace: what was saved,
and one more for every run that returned since.  The hangs and crashes that lead to a mark
are therefore those that the trace shows.  -/
theorem Judged.run {restore : Bool} {inputs : List Sample} {disk : Option SavedState}
    {files : ℕ → Option Sample} (h : Run (Step cfg) (System.init restore inputs disk files) tr s) :
    Judged cfg (savedTally restore disk) (SavedDiscarded restore disk) tr s := by
  induction h with
  | refl =>
      have hnothing : ∀ u e, ¬ GivenUp cfg (savedTally restore disk) ([] : List (Event τ)) u e := by
        rintro u e ⟨tr₁, result, hasNew, tr₂, heq, -⟩
        simp at heq
      refine ⟨nofun, fun hs e _ => ?_, fun u e h => absurd h (hnothing u e), nofun⟩
      cases restore with
      | true => exact absurd rfl hs
      | false =>
          refine ⟨rfl, ?_, fun u => hnothing u e⟩
          rintro ⟨entry, h, -⟩
          cases h
  | @snoc tr s event s' hrun hstep ih =>
      rcases hstep.kinds with ⟨t, choices, job, shared, rfl, hpc, hjob, rfl⟩ | ⟨t, rfl, hpc, rfl⟩ | hw
      · by_cases hs : s.shared.state = .restoreNeeded
        · obtain ⟨rfl, rfl⟩ := nothing_of_restoreNeeded hrun hs
          exact Judged.restored hs hjob
        · exact ih.call hs hpc hjob
      · refine ih.done (fun hs => ?_) hpc
        obtain ⟨-, rfl⟩ := nothing_of_restoreNeeded hrun hs
        cases hpc
      · refine ih.works (fun hs => ?_) hstep hw
        have hin := hw.inJob
        obtain ⟨-, rfl⟩ := nothing_of_restoreNeeded hrun hs
        cases hin

end Judged

section Discards

variable [TinyInst] [DecidableEq τ] [Fintype τ] {cfg : Config μ} {restore : Bool} {inputs : List Sample}
  {disk : Option SavedState} {files : ℕ → Option Sample} {tr : List (Event τ)} {s : System τ μ}

omit [Fintype τ] in
/-- A thread whose run returns has still to adjust the entry before it is done with the job,
so `JobDone` always comes after the counters.  -/
theorem Step.pc_of_returned {s' : System τ μ} {t : τ} {e : ℕ} {result : RunResult} {hasNew : Bool}
    (h : Step cfg s (.returned t (.fuzz e) result hasNew) s') : (s.threads t).pc ≠ .jobDone := by
  generalize hevent : Event.returned t (Job.fuzz e) result hasNew = event at h
  cases h with
  | thread hl =>
      have hthread := hl.facts.thread
      rw [← hevent] at hthread
      obtain rfl : t = _ := hthread
      exact hl.neutral.2.1
  | adjust hpc hjob =>
      obtain ⟨rfl, -⟩ := Event.returned.inj hevent
      rw [hpc]
      exact nofun
  | _ => cases hevent

omit [Fintype τ] in
/-- A thread that has just got a job is not done with it: it works on the job first, if only
to find that it has to wait.  -/
theorem Step.pc_of_gotJob {s' : System τ μ} {t : τ} {choices : Choices} {job : Job}
    (h : Step cfg s (.gotJob t choices job) s') : (s'.threads t).pc ≠ .jobDone := by
  rcases h.kinds with ⟨u, c, j, shared, heq, hpc, hjob, rfl⟩ | ⟨u, heq, -⟩ | hw
  · cases heq
    show ((s.setThread t _).threads t).pc ≠ .jobDone
    rw [System.setThread_self]
    exact nofun
  · cases heq
  · cases hw.noJob

omit [TinyInst] [DecidableEq τ] in
/-- A thread that has an entry to fuzz has one that nobody has given up: it was not
discarded when the session began, and no thread has given it up since, its own included.  -/
theorem Judged.fuzzed {before : ℕ → Tally} {gone : ℕ → Prop} (hI : Judged cfg before gone tr s)
    (hok : CorpusOk s) {t : τ} {e : ℕ} (hholds : (s.threads t).holds e = true)
    (hpc : (s.threads t).pc ≠ .jobDone) : ¬ gone e ∧ ∀ u, ¬ GivenUp cfg before tr u e := by
  obtain ⟨-, hone, entry, hentry, hmark⟩ := hok.conserved.of_held (countThreads_pos hholds)
  have hnot : ¬ (gone e ∨ Discards cfg before tr e) := fun h => by
    have := (hI.known e entry hentry).2.2 h
    omega
  refine ⟨fun h => hnot (Or.inl h), fun u hu => ?_⟩
  rcases hI.givenUp u e hu with h | ⟨hdone, hjob, -⟩
  · exact hnot (Or.inr h)
  · -- the thread that has given it up would be a second one that has it
    have hne : u ≠ t := by
      rintro rfl
      exact hpc hdone
    have hu : (s.threads u).holds e = true := Thread.holds_iff.2 ⟨by rw [hdone]; rfl, hjob⟩
    exact absurd ((two_le_countThreads hne hholds hu).trans_eq hone) (by decide)

/-- What is said of the entries in a state, and of the steps from there. -/
structure DiscardDiscipline (cfg : Config μ) (restore : Bool) (disk : Option SavedState)
    (tr : List (Event τ)) (s : System τ μ) : Prop where
  /-- The counters are the saved ones and the runs of this session. -/
  counted : ∀ (e : ℕ) (entry : SampleQueueEntry), s.shared.allEntries[e]? = some entry →
    entry.tally = tally (savedTally restore disk) tr e
  /-- An entry is discarded if it was before, or when the job is done after a run with which it
  has failed too often. -/
  discarded : ∀ (e : ℕ) (entry : SampleQueueEntry), s.shared.allEntries[e]? = some entry →
    (entry.discarded = 1 ↔
      SavedDiscarded restore disk e ∨ Discards cfg (savedTally restore disk) tr e)
  /-- An entry in the queue has not failed too often at any of its runs in this session. -/
  queued : ∀ e ∈ s.shared.sampleQueue, ∀ t, ¬ GivenUp cfg (savedTally restore disk) tr t e
  /-- No entry is handed out or run that was given up before. -/
  never : ∀ event s', Step cfg s event s' → ∀ t e,
    ((∃ choices, event = .gotJob t choices (.fuzz e)) ∨
      ∃ result hasNew, event = .returned t (.fuzz e) result hasNew) →
    ¬ SavedDiscarded restore disk e ∧ ∀ u, ¬ GivenUp cfg (savedTally restore disk) tr u e

/-- **Entries that fail too often are discarded, and no others**, in every session, over
every interleaving of its threads, from whatever earlier sessions saved.  The counters of an
entry are those of its runs, it is marked exactly when hangs or crashes are too many for the
runs it had, and it is not handed out again after that.  -/
theorem discards_failing (hdisk : Disk disk files)
    (hrun : Run (Step cfg) (System.init restore inputs disk files) tr s) :
    DiscardDiscipline cfg restore disk tr s := by
  have hI := Judged.run hrun
  have hok := CorpusOk.run hdisk.counts hrun
  refine ⟨fun e entry he => (hI.known e entry he).1, fun e entry he => (hI.known e entry he).2,
    fun e he t hgiven => ?_, fun event s' hstep t e hevent => ?_⟩
  · obtain ⟨hheld, entry, hentry, hmark⟩ := hok.conserved.of_mem he
    rcases hI.givenUp t e hgiven with h | ⟨hpc, hjob, -⟩
    · have := (hI.known e entry hentry).2.2 (Or.inr h)
      omega
    · have hpos := countThreads_pos (s := s) (Thread.holds_iff.2 ⟨by rw [hpc]; rfl, hjob⟩)
      exact absurd hheld hpos.ne'
  · rcases hevent with ⟨choices, rfl⟩ | ⟨result, hasNew, rfl⟩
    · -- the thread has the entry in the next state
      have hrun' := hrun.snoc hstep
      obtain ⟨hgone, hnever⟩ := (Judged.run hrun').fuzzed (CorpusOk.run hdisk.counts hrun')
        hstep.holds_of_gotJob hstep.pc_of_gotJob
      exact ⟨hgone, fun u hu => hnever u (givenUp_snoc.2 (Or.inl hu))⟩
    · exact hI.fuzzed hok hstep.holds_of_returned hstep.pc_of_returned

end Discards

section

attribute [local instance] listTinyInst

/-- A session in which every hang ratio is too high. -/
def failingConfig : Config SimpleTrimmerContext :=
  { sessionConfig with overHangRatio := fun _ _ => true }

/-- A round of `FuzzJob` in which the target hangs: the thread gives the entry up at the
eleventh hang, and goes on before. -/
theorem run_hang {s : System Bool SimpleTrimmerContext} {entry : SampleQueueEntry}
    (hpc : (s.threads true).pc = .working) (hjob : (s.threads true).job = .fuzz 0)
    (hentry : s.shared.allEntries[0]? = some entry) :
    ∃ tr s', Run (Step failingConfig) s tr s' ∧ (s'.threads true).job = .fuzz 0 ∧
      s'.shared.allEntries[0]? = some (recordRun entry .hang false) ∧
      (s'.threads true).pc =
        (if tooManyFailures failingConfig (recordRun entry .hang false) then .jobDone else .working) ∧
      (s'.threads true).discardSample =
        tooManyFailures failingConfig (recordRun entry .hang false) := by
  have hmutate : Step failingConfig s _ _ :=
    Step.thread (t := true) (.mutate (Sample.init (str "B")) hpc hjob (by decide))
  have hrunning : ((s.setThread true { s.threads true with
      pc := .running (Sample.init (str "B")) }).threads true).pc = .running (Sample.init (str "B")) :=
    congrArg Thread.pc (System.setThread_self s true _)
  have hrun : Step failingConfig _ _ _ :=
    Step.thread (t := true) (.firstRun ⟨.hang, [], 0⟩ hrunning)
  refine ⟨_, _, Run.cons hmutate (Run.cons hrun (Run.single
    (@Step.adjust _ _ _ _ _ _ true 0 entry .hang false ?_ ?_ hentry))), ?_, ?_, ?_, ?_⟩
  · rw [System.setThread_self]
    rfl
  · rw [System.setThread_self, System.setThread_self]
    exact hjob
  · show ((System.setThread _ _ _).threads true).job = _
    rw [System.setThread_self, System.setThread_self, System.setThread_self]
    exact hjob
  · obtain ⟨hlt, -⟩ := List.getElem?_eq_some_iff.1 hentry
    exact List.getElem?_set_self hlt
  · show ((System.setThread _ _ _).threads true).pc = _
    rw [System.setThread_self]
  · show ((System.setThread _ _ _).threads true).discardSample = _
    rw [System.setThread_self]

/-- So it goes on for up to ten hangs: each run of the entry hangs and is counted, and ten
are not too many, so the thread keeps the entry and mutates it again.  -/
theorem run_hangs {s : System Bool SimpleTrimmerContext} {entry : SampleQueueEntry} {n : ℕ}
    (hpc : (s.threads true).pc = .working) (hjob : (s.threads true).job = .fuzz 0)
    (hentry : s.shared.allEntries[0]? = some entry) (hn : entry.numHangs + n ≤ 10)
    (hcrashes : entry.numCrashes = 0) :
    ∃ tr s' entry', Run (Step failingConfig) s tr s' ∧ (s'.threads true).pc = .working ∧
      (s'.threads true).job = .fuzz 0 ∧ s'.shared.allEntries[0]? = some entry' ∧
      entry'.numHangs = entry.numHangs + n ∧ entry'.numCrashes = 0 := by
  induction n with
  | zero => exact ⟨[], s, entry, Run.refl, hpc, hjob, hentry, rfl, hcrashes⟩
  | succ n ih =>
      obtain ⟨tr, u, entry', hrun, hpc', hjob', hentry', hhangs, hcrashes'⟩ := ih (by omega)
      obtain ⟨tr', u', hrun', hjob'', hentry'', hpc'', -⟩ := run_hang hpc' hjob' hentry'
      have hgoes : tooManyFailures failingConfig (recordRun entry' .hang false) = false := by
        have hle : ¬ entry'.numHangs + 1 > 10 := by omega
        have hzero : ¬ entry'.numCrashes > 100 := by omega
        simp only [tooManyFailures, Bool.or_eq_false_iff, Bool.and_eq_false_iff]
        exact ⟨Or.inl (decide_eq_false hle), Or.inl (decide_eq_false hzero)⟩
      rw [hgoes] at hpc''
      refine ⟨tr ++ tr', u', _, hrun.trans hrun', hpc'', hjob'', hentry'', ?_, hcrashes'⟩
      show entry'.numHangs + 1 = _
      omega

/-- A thread is handed the only entry, its target hangs eleven times, and the job is done:
the eleventh hang is one too many, and the entry is marked as discarded.  -/
theorem run_discard : ∃ (tr : List (Event Bool)) (s : System Bool SimpleTrimmerContext)
    (entry : SampleQueueEntry),
    Run (Step failingConfig) (System.init false [sessionInput] none fun _ => none) tr s ∧
    s.shared.allEntries[0]? = some entry ∧ entry.numHangs = 11 ∧ entry.discarded = 1 := by
  have hhanded : ∃ (tr : List (Event Bool)) (s : System Bool SimpleTrimmerContext),
      Run (Step failingConfig) (System.init false [sessionInput] none fun _ => none) tr s ∧
      (s.threads true).pc = .working ∧ (s.threads true).job = .fuzz 0 ∧
      s.shared.allEntries[0]? = some (newEntry sessionInput 0 0) :=
    ⟨_, _, Run.cons (Step.getJob (t := false) (chosen false []) rfl rfl)
      (Run.cons (Step.thread (t := false) (.process rfl rfl))
      (Run.cons (Step.thread (t := false) (.firstRun (reaches 1) rfl))
      (Run.cons (Step.interesting (t := false) rfl rfl)
      (Run.cons (Step.thread (t := false) (.report rfl))
      (Run.cons (Step.number (t := false) rfl)
      (Run.cons (Step.create (t := false) rfl)
      (Run.cons (Step.push (t := false) rfl)
      (Run.cons (Step.thread (t := false) (.finish rfl))
      (Run.cons (Step.thread (t := false) (.processed rfl rfl))
      (Run.cons (Step.done (t := false) rfl)
      (Run.single (Step.getJob (t := true) (chosen false []) rfl rfl)))))))))))), rfl, rfl, rfl⟩
  obtain ⟨tr, s, hrun, hpc, hjob, hentry⟩ := hhanded
  obtain ⟨tr₁, s₁, entry₁, hrun₁, hpc₁, hjob₁, hentry₁, hhangs, -⟩ :=
    @run_hangs _ _ 10 hpc hjob hentry le_rfl rfl
  obtain ⟨tr₂, s₂, hrun₂, hjob₂, hentry₂, hpc₂, hdiscard⟩ := run_hang hpc₁ hjob₁ hentry₁
  have hgives : tooManyFailures failingConfig (recordRun entry₁ .hang false) = true := by
    have hten : entry₁.numHangs = 10 := hhangs
    have hgt : entry₁.numHangs + 1 > 10 := by omega
    rw [tooManyFailures, Bool.or_eq_true]
    exact Or.inl (Bool.and_eq_true_iff.2 ⟨decide_eq_true hgt, rfl⟩)
  rw [hgives] at hpc₂ hdiscard
  refine ⟨_, _, { recordRun entry₁ .hang false with discarded := 1 },
    ((hrun.trans hrun₁).trans hrun₂).snoc (Step.done (t := true) hpc₂), ?_, ?_, rfl⟩
  · show (jobDone s₂.shared (s₂.threads true).job (s₂.threads true).discardSample).allEntries[0]? = _
    rw [hjob₂, hdiscard]
    show (s₂.shared.allEntries.modify 0 _)[0]? = _
    rw [List.getElem?_modify, hentry₂]
    rfl
  · show entry₁.numHangs + 1 = 11
    rw [hhangs]
    rfl

/-- The entry is discarded, so it has been given up: nothing else discards one.  It had
eleven hangs, and the run of its last job is in the trace.  -/
theorem discards_failing_two : ∃ (tr : List (Event Bool)) (s : System Bool SimpleTrimmerContext)
    (entry : SampleQueueEntry), s.shared.allEntries[0]? = some entry ∧ entry.discarded = 1 ∧
    entry.tally.numHangs = 11 ∧ (tally (savedTally false none) tr 0).numHangs = 11 ∧
    Discards failingConfig (savedTally false none) tr 0 ∧
    DiscardDiscipline failingConfig false none tr s := by
  obtain ⟨tr, s, entry, hrun, hentry, hhangs, hmark⟩ := run_discard
  have hdiscipline := discards_failing (.fresh _) hrun
  refine ⟨tr, s, entry, hentry, hmark, hhangs, ?_, ?_, hdiscipline⟩
  · rw [← hdiscipline.counted 0 entry hentry]
    exact hhangs
  · rcases (hdiscipline.discarded 0 entry hentry).1 hmark with ⟨_, hnone, -⟩ | hdiscards
    · cases hnone
    · exact hdiscards

end

end Fuzzer
end Jackalope
