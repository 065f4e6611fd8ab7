/-
# The samples that the threads hold

A sample enters a thread with its job or from the mutator, and the minimizer may
replace it.  From then on it is only handed around: to the target, to `SaveSample`
and into the corpus.  So a property that holds of it when it enters and that the
minimizer keeps holds of every sample the thread runs or saves (`Step.fed`).

This is used twice.  With "it is the sample of the job" it says whose entry
`SaveSample` makes, and with a bound on the size it says what reaches the target.
-/

import Jackalope.Fuzzer.Threads

namespace Jackalope
namespace Fuzzer

variable {τ μ : Type}

/-- A property of the samples in a job that the sources within a job establish: the
mutator, behind the check of its result, and the minimizer. -/
structure Feeds (cfg : Config μ) (P : Job → Sample → Prop) : Prop where
  mutated : ∀ e sample, ¬ sample.size > cfg.maxSize → P (.fuzz e) sample
  minimized : ∀ e sample context test context', P (.fuzz e) sample →
    cfg.minimizer.minimizeStep sample context = some (test, context') → P (.fuzz e) test

/-- The samples in the local variables of a thread have the property. -/
def Thread.Carries (P : Job → Sample → Prop) (th : Thread μ) : Prop :=
  match th.pc with
  | .running sample | .retrying sample _ _ _ | .judging sample _ _ _ | .reporting sample _ _
  | .saving _ sample _ => P th.job sample
  -- only FUZZ jobs trim
  | .minimizing sample testSample _ _ _ _ =>
      P th.job sample ∧ P th.job testSample ∧ ∃ e, th.job = .fuzz e
  | _ => True

/-- The sample of the job has the property, and so have those in local variables. -/
structure Thread.Fed (P : Job → Sample → Prop) (th : Thread μ) : Prop where
  job : ∀ origin sample, th.job = .processSample origin sample → P th.job sample
  carries : th.Carries P

/-- `SaveSample` begins with the sample it is given. -/
theorem saveSample_carries {P : Job → Sample → Prop} (cfg : Config μ) (savingFor : SavingFor)
    (th : Thread μ) {sample : Sample} (h : P th.job sample) :
    { th with pc := saveSample cfg savingFor sample }.Carries P := h

section

variable [TinyInst]

/-- The retries are those of the sample that was run first, so what is known of it is known
of them.  -/
theorem retryOrJudge_carries {P : Job → Sample → Prop} (cfg : Config μ) (i : ℕ)
    (stable total : Coverage) (th : Thread μ) {sample : Sample} (h : P th.job sample) :
    { th with pc := retryOrJudge cfg sample i stable total }.Carries P := by
  unfold retryOrJudge
  split
  · exact h
  · exact h

omit [TinyInst] in
/-- Behind `InterestingSample` the thread goes on with the sample of the call, whether it
trims it, reports it or drops it.  -/
theorem afterInteresting_carries {P : Job → Sample → Prop} (cfg : Config μ)
    (newStable newVar total : Coverage) (th : Thread μ) {sample : Sample} (h : P th.job sample) :
    { th with pc := afterInteresting cfg th.job sample newStable newVar total }.Carries P := by
  unfold afterInteresting
  split
  · trivial
  · split
    · rename_i e hjob
      split
      · exact ⟨h, h, e, hjob⟩
      · exact h
    · exact h

/-- **A step of the minimizer** goes on with the sample before or with the test, whichever
its result says, and only FUZZ jobs minimize.  -/
theorem afterTest_carries {P : Job → Sample → Prop} (cfg : Config μ) (context : μ)
    (stable var total : Coverage) (outcome : Outcome) (th : Thread μ) {sample test : Sample}
    (h : P th.job sample) (htest : P th.job test) (hjob : ∃ e, th.job = .fuzz e) :
    { th with pc := afterTest cfg sample test context stable var total outcome }.Carries P := by
  rcases afterTest_eq cfg sample test context stable var total outcome with
    heq | ⟨kept, context', hkept | hkept, heq⟩ <;> rw [heq]
  · exact h
  · subst hkept
    exact ⟨h, h, hjob⟩
  · subst hkept
    exact ⟨htest, htest, hjob⟩

/-- **A step of a thread on its own** keeps the property, and what it runs has it: the
sample of the job, a mutation of it, a test of the minimizer, and the same sample again in a
retry.  -/
theorem LocalStep.fed {cfg : Config μ} {P : Job → Sample → Prop} {t : τ} {th th' : Thread μ}
    {event : Event τ} (h : LocalStep cfg t th event th') (hP : Feeds cfg P) (hs : th.Fed P) :
    th'.Carries P ∧
      ∀ purpose sample outcome, event = .ran t purpose sample outcome → P th.job sample := by
  obtain ⟨hjob, hc⟩ := hs
  obtain ⟨pc, job, discardSample, threadCoverage⟩ := th
  cases h with
  | wait | mutateDone | finish => exact ⟨trivial, nofun⟩
  | mutateTooLarge => exact ⟨hc, nofun⟩
  | process hpc hj => exact ⟨hjob _ _ hj, nofun⟩
  | @mutate e mutated hpc hj hsize =>
      refine ⟨?_, nofun⟩
      show P job mutated
      obtain rfl : job = _ := hj
      exact hP.mutated e mutated hsize
  | @firstRun sample outcome hpc =>
      obtain rfl : pc = _ := hpc
      have hsample : P job sample := hc
      refine ⟨?_, by rintro _ _ _ ⟨⟩; exact hsample⟩
      rcases afterFirstRun_eq cfg threadCoverage sample outcome with heq | heq <;> simp only [heq]
      · trivial
      · exact retryOrJudge_carries cfg _ _ _ ⟨.running sample, job, discardSample, threadCoverage⟩
          hsample
  | @retry sample i stable total outcome hpc =>
      obtain rfl : pc = _ := hpc
      have hsample : P job sample := hc
      refine ⟨?_, by rintro _ _ _ ⟨⟩; exact hsample⟩
      rcases afterRetry_eq cfg sample i stable total outcome with heq | heq <;> simp only [heq]
      · trivial
      · exact retryOrJudge_carries cfg _ _ _ ⟨.running sample, job, discardSample, threadCoverage⟩
          hsample
  | minimizeDone hpc =>
      obtain rfl : pc = _ := hpc
      exact ⟨hc.1, nofun⟩
  | @minimize sample test test' context context' stable var total outcome hpc hmin =>
      obtain rfl : pc = _ := hpc
      obtain ⟨hsample, htest, e, rfl⟩ := hc
      have htest' := hP.minimized e test context test' context' htest hmin
      exact ⟨afterTest_carries cfg context' stable var total outcome
        ⟨.jobDone, .fuzz e, discardSample, threadCoverage⟩ hsample htest' ⟨e, rfl⟩,
        by rintro _ _ _ ⟨⟩; exact htest'⟩
  | @report sample var total hpc =>
      obtain rfl : pc = _ := hpc
      exact ⟨saveSample_carries cfg _ ⟨.jobDone, job, discardSample, threadCoverage⟩ hc, nofun⟩
  | @saveRanges savingFor sample outcome hpc =>
      obtain rfl : pc = _ := hpc
      have hsample : P job sample := hc
      exact ⟨hsample, by rintro _ _ _ ⟨⟩; exact hsample⟩
  | @processed origin sample result hasNew hpc hj =>
      refine ⟨?_, nofun⟩
      rcases afterProcess_eq cfg sample result hasNew with heq | heq <;> simp only [heq]
      · trivial
      · exact saveSample_carries cfg _ ⟨.jobDone, job, discardSample, threadCoverage⟩ (hjob _ _ hj)

variable [DecidableEq τ]

/-- **Every step keeps the property**, if the sample of a job that is handed out has
it, and what is run or saved has it. -/
theorem Step.fed {cfg : Config μ} {P : Job → Sample → Prop} {s s' : System τ μ} {event : Event τ}
    (h : Step cfg s event s') (hP : Feeds cfg P)
    (hnew : ∀ origin sample, event.job = some (.processSample origin sample) →
      P (.processSample origin sample) sample)
    (hs : ∀ t, (s.threads t).Fed P) :
    (∀ t, (s'.threads t).Fed P) ∧
      (∀ t purpose sample outcome, event = .ran t purpose sample outcome →
        P (s.threads t).job sample) ∧
      ∀ t job e sample, event = .pushed t job e sample → P job sample := by
  -- the threads that do not take the step are as they were
  have hframe : (s'.threads event.thread).Fed P → ∀ t, (s'.threads t).Fed P := by
    intro hself t
    by_cases ht : event.thread = t
    · exact ht ▸ hself
    · rw [h.thread_eq ht]
      exact hs t
  cases h with
  | @thread t event th hl =>
      obtain ⟨hc, hran⟩ := hl.fed hP (hs t)
      have hthread := hl.facts.thread
      refine ⟨hframe ?_, ?_, ?_⟩
      · rw [hthread, System.setThread_self]
        exact ⟨by rw [hl.facts.job]; exact (hs t).job, hc⟩
      · rintro u purpose sample outcome rfl
        obtain rfl : u = t := hthread
        exact hran purpose sample outcome rfl
      · rintro u job e sample rfl
        exact absurd rfl (hthread ▸ hl.facts.notShared.2.2.1 job e sample)
  | @getJob t choices shared job hpc hjob =>
      refine ⟨hframe ?_, nofun, nofun⟩
      show ((s.setThread t _).threads t).Fed P
      rw [System.setThread_self]
      exact ⟨by rintro origin sample rfl; exact hnew origin sample rfl, trivial⟩
  | @interesting t sample stable var total after newStable newVar hpc _ =>
      refine ⟨hframe ?_, nofun, nofun⟩
      show ((s.setThread t _).threads t).Fed P
      rw [System.setThread_self]
      have hc := (hs t).carries
      rw [Thread.Carries, hpc] at hc
      exact ⟨(hs t).job, afterInteresting_carries cfg newStable newVar total (s.threads t) hc⟩
  | @number t savingFor sample hpc =>
      refine ⟨hframe ?_, nofun, nofun⟩
      show ((s.setThread t _).threads t).Fed P
      rw [System.setThread_self]
      have hc := (hs t).carries
      rw [Thread.Carries, hpc] at hc
      exact ⟨(hs t).job, hc⟩
  | @create t savingFor sample fileindex hpc =>
      refine ⟨hframe ?_, nofun, nofun⟩
      show ((s.setThread t _).threads t).Fed P
      rw [System.setThread_self]
      have hc := (hs t).carries
      rw [Thread.Carries, hpc] at hc
      exact ⟨(hs t).job, hc⟩
  | @push t savingFor sample fileindex sampleIndex hpc =>
      have hc := (hs t).carries
      rw [Thread.Carries, hpc] at hc
      refine ⟨hframe ?_, nofun, ?_⟩
      · show ((s.setThread t _).threads t).Fed P
        rw [System.setThread_self]
        refine ⟨(hs t).job, ?_⟩
        cases savingFor <;> trivial
      · rintro u job e sample ⟨⟩
        exact hc
  | @adjust t e entry result hasNew hpc hjob =>
      refine ⟨hframe ?_, nofun, nofun⟩
      show ((s.setThread t _).threads t).Fed P
      rw [System.setThread_self]
      refine ⟨(hs t).job, ?_⟩
      cases tooManyFailures cfg (recordRun entry result hasNew) <;> trivial
  | @done t hpc =>
      refine ⟨hframe ?_, nofun, nofun⟩
      show ((s.setThread t _).threads t).Fed P
      rw [System.setThread_self]
      exact ⟨(hs t).job, trivial⟩

end

end Fuzzer
end Jackalope
