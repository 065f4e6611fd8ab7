/-
# Where the samples come from

A session gets its samples from the input directory, the server, the generator and the
mutator, and it finds those of the sessions before in their files.  From then on they
are only run, minimized, saved and mutated.  So a property of samples that holds of
what is brought in, under the assumption that it holds of everything the session has
by then, holds of everything that is ever run or saved (`Closed.run`), also across
sessions that were killed.

The mutator may use whatever the session has: what it brings in is judged in the state
in which it does.  The minimizer has a context, so with the property of the samples
goes one of the contexts (`KeptBy`).
-/

import Jackalope.Fuzzer.Sessions

namespace Jackalope
namespace Fuzzer

open Foundation

variable {τ μ : Type}

/-- **What the minimizer keeps**: from a sample with the property it makes a context with
the property `C`, and from such a context test samples with the property, whatever is
reported. -/
structure KeptBy (minimizer : Minimizer μ) (P : Sample → Prop) (C : μ → Prop) : Prop where
  createContext : ∀ sample, P sample → C (minimizer.createContext sample)
  minimizeStep : ∀ sample context test context', C context →
    minimizer.minimizeStep sample context = some (test, context') →
      P test ∧ C (minimizer.reportSuccess test context') ∧ C (minimizer.reportFail test context')

/-- The samples and the context in the local variables of `RunSample` and what it calls. -/
def Pc.Has (P : Sample → Prop) (C : μ → Prop) : Pc μ → Prop
  | .running sample | .retrying sample _ _ _ | .judging sample _ _ _ | .reporting sample _ _
  | .saving _ sample _ => P sample
  | .minimizing sample testSample context _ _ _ => P sample ∧ P testSample ∧ C context
  | _ => True

/-- What a thread has: also the sample of its job. -/
structure Thread.Has (P : Sample → Prop) (C : μ → Prop) (th : Thread μ) : Prop where
  pc : th.pc.Has P C
  job : ∀ origin sample, th.job = .processSample origin sample → P sample

/-- What is brought in with this event: a sample to be processed, or the mutated sample of
a FUZZ job. -/
def Brings (P : Sample → Prop) (s : System τ μ) : Event τ → Prop
  | .gotJob _ _ (.processSample _ sample) => P sample
  | .called t sample _ => ∀ e, (s.threads t).job = .fuzz e → P sample
  | _ => True

/-- **All that the session has** has the property: the threads, the corpus, and what a
restored session would find. -/
structure Closed (P : Sample → Prop) (C : μ → Prop) (s : System τ μ) : Prop where
  threads : ∀ t, (s.threads t).Has P C
  entries : ∀ entry ∈ s.shared.allEntries, P entry.sample
  saved : ∀ saved, s.shared.stateDat = some saved → ∀ entry ∈ saved.entries, P entry.sample

variable {P : Sample → Prop} {C : μ → Prop}

/-- Entries that own no other samples. -/
theorem entries_of_owns {entries entries' : List SampleQueueEntry}
    (howns : ∀ e n x, entryOwns entries' e n x → entryOwns entries e n x)
    (h : ∀ entry ∈ entries, P entry.sample) : ∀ entry ∈ entries', P entry.sample := by
  intro entry hentry
  obtain ⟨e, he⟩ := List.getElem?_of_mem hentry
  obtain ⟨entry₀, he₀, -, hsample⟩ := howns e _ _ ⟨entry, he, rfl, rfl⟩
  exact hsample ▸ h entry₀ (List.mem_of_getElem? he₀)

/-- Whatever has a file has the property: an entry of the corpus, or a sample that a thread
has numbered and not published yet.  -/
theorem Closed.owned {s : System τ μ} (hs : Closed P C s) {o : ℕ ⊕ τ} {n : ℕ} {sample : Sample}
    (h : s.owns o n sample) : P sample := by
  rcases o with e | t
  · obtain ⟨entry, hentry, -, rfl⟩ := h
    exact hs.entries entry (List.mem_of_getElem? hentry)
  · have hpc := (hs.threads t).pc
    replace h : (s.threads t).pc.file = some (n, sample) := h
    unfold Pc.file at h
    split at h
    · cases h
      rename_i heq
      rw [heq] at hpc
      exact hpc
    · cases h
      rename_i heq
      rw [heq] at hpc
      exact hpc
    · cases h

/-! ### A thread on its own -/

/-- `SaveSample` goes on with the sample that it was called with.  -/
theorem saveSample_has (cfg : Config μ) (savingFor : SavingFor) {sample : Sample} (h : P sample) :
    (saveSample cfg savingFor sample : Pc μ).Has P C := h

section

variable [TinyInst]

/-- The retries are those of the sample that was run first.  -/
theorem retryOrJudge_has (cfg : Config μ) (i : ℕ) (stable total : Coverage) {sample : Sample}
    (h : P sample) : (retryOrJudge cfg sample i stable total).Has P C := by
  rcases retryOrJudge_eq cfg sample i stable total with ⟨-, heq⟩ | ⟨-, heq⟩ <;> rw [heq] <;> exact h

omit [TinyInst] in
/-- What is minimized or reported behind `InterestingSample` is the sample of the call, and
the context of the minimizer is made for it.  -/
theorem afterInteresting_has {cfg : Config μ} (hkept : KeptBy cfg.minimizer P C) (job : Job)
    (newStable newVar total : Coverage) {sample : Sample} (h : P sample) :
    (afterInteresting cfg job sample newStable newVar total).Has P C := by
  rcases afterInteresting_eq cfg job sample newStable newVar total with
    ⟨-, heq⟩ | ⟨-, heq⟩ | ⟨-, heq⟩ <;> rw [heq]
  · trivial
  · exact ⟨h, h, hkept.createContext sample h⟩
  · exact h

/-- After a test the minimizer is told how it went, with the sample that is kept. -/
theorem afterTest_has {cfg : Config μ} {context : μ} (stable var total : Coverage) (outcome : Outcome)
    {sample test : Sample} (h : P sample) (htest : P test)
    (hsuccess : C (cfg.minimizer.reportSuccess test context))
    (hfail : C (cfg.minimizer.reportFail test context)) :
    (afterTest cfg sample test context stable var total outcome).Has P C := by
  unfold afterTest
  split
  · exact h
  · split
    · exact ⟨h, h, hfail⟩
    · exact ⟨htest, htest, hsuccess⟩

/-- **A step of a thread on its own** keeps what the thread has, and what it runs has the
property. -/
theorem LocalStep.has {cfg : Config μ} {t : τ} {th th' : Thread μ} {event : Event τ}
    (h : LocalStep cfg t th event th') (hkept : KeptBy cfg.minimizer P C)
    (hmutated : ∀ e sample threadCoverage, event = .called t sample threadCoverage →
      th.job = .fuzz e → P sample)
    (hth : th.Has P C) :
    th'.pc.Has P C ∧ ∀ purpose sample outcome, event = .ran t purpose sample outcome → P sample := by
  obtain ⟨hpc, hjob⟩ := hth
  cases h with
  | wait | mutateDone | finish => exact ⟨trivial, nofun⟩
  | mutateTooLarge => exact ⟨hpc, nofun⟩
  | process _ hj => exact ⟨hjob _ _ hj, nofun⟩
  | mutate mutated _ hj => exact ⟨hmutated _ mutated _ rfl hj, nofun⟩
  | @firstRun sample outcome hp =>
      rw [hp] at hpc
      refine ⟨?_, by rintro _ _ _ ⟨⟩; exact hpc⟩
      rcases afterFirstRun_eq cfg th.threadCoverage sample outcome with heq | heq <;> simp only [heq]
      · trivial
      · exact retryOrJudge_has cfg _ _ _ hpc
  | @retry sample i stable total outcome hp =>
      rw [hp] at hpc
      refine ⟨?_, by rintro _ _ _ ⟨⟩; exact hpc⟩
      rcases afterRetry_eq cfg sample i stable total outcome with heq | heq <;> simp only [heq]
      · trivial
      · exact retryOrJudge_has cfg _ _ _ hpc
  | minimizeDone hp =>
      rw [hp] at hpc
      exact ⟨hpc.1, nofun⟩
  | @minimize sample test test' context context' stable var total outcome hp hmin =>
      rw [hp] at hpc
      obtain ⟨hsample, -, hcontext⟩ := hpc
      obtain ⟨htest', hsuccess, hfail⟩ := hkept.minimizeStep test context test' context' hcontext hmin
      exact ⟨afterTest_has stable var total outcome hsample htest' hsuccess hfail,
        by rintro _ _ _ ⟨⟩; exact htest'⟩
  | report hp =>
      rw [hp] at hpc
      exact ⟨saveSample_has cfg _ hpc, nofun⟩
  | saveRanges outcome hp =>
      rw [hp] at hpc
      exact ⟨hpc, by rintro _ _ _ ⟨⟩; exact hpc⟩
  | @processed origin sample result hasNew _ hj =>
      refine ⟨?_, nofun⟩
      rcases afterProcess_eq cfg sample result hasNew with heq | heq <;> simp only [heq]
      · trivial
      · exact saveSample_has cfg _ (hjob _ _ hj)

end

/-! ### Steps -/

/-- **A call**: what is restored has the property, and what is saved then.  The samples on
disk have it by assumption, and those of the corpus have it already.  -/
theorem Closed.call {cfg : Config μ} {s : System τ μ} (hs : Closed P C s)
    (hok : FilesOk s) (hinit : s.shared.state = .restoreNeeded → s.shared.allEntries = [])
    {choices : Choices} {shared : Shared} {job : Job}
    (hjob : synchronizeAndGetJob cfg choices s.shared = some (shared, job)) :
    (∀ entry ∈ shared.allEntries, P entry.sample) ∧
      ∀ saved, shared.stateDat = some saved → ∀ entry ∈ saved.entries, P entry.sample := by
  obtain ⟨f, hf, hentries, hdat, -, -⟩ := synchronizeAndGetJob_files hjob
  -- what is there once the state is restored
  have hrestored : (∀ entry ∈ f.allEntries, P entry.sample) ∧ f.stateDat = s.shared.stateDat := by
    rcases restoreIfNeeded_eq hf with ⟨-, rfl⟩ | ⟨saved, queue, hstate, hsaved, -, rfl⟩
    · exact ⟨hs.entries, rfl⟩
    · refine ⟨?_, rfl⟩
      show ∀ entry ∈ s.shared.allEntries ++ _, P entry.sample
      rw [hinit hstate, List.nil_append, (hok.saved saved hsaved).1.loadEntry]
      exact hs.saved saved hsaved
  refine ⟨hentries ▸ hrestored.1, fun saved hsaved => ?_⟩
  rw [hdat, stateDatAfter] at hsaved
  split at hsaved
  · cases hsaved
    exact hrestored.1
  · exact hs.saved saved (hrestored.2.symm.trans hsaved)

section

variable [DecidableEq τ]

/-- One thread and what is shared may change, if what the thread has then, the entries and
what is saved have the property.  -/
theorem Closed.update {s : System τ μ} (hs : Closed P C s) {t : τ} {th : Thread μ} {shared : Shared}
    (hth : th.Has P C) (hentries : ∀ entry ∈ shared.allEntries, P entry.sample)
    (hsaved : ∀ saved, shared.stateDat = some saved → ∀ entry ∈ saved.entries, P entry.sample) :
    Closed P C { s.setThread t th with shared := shared } := by
  refine ⟨fun u => ?_, hentries, hsaved⟩
  show ((s.setThread t th).threads u).Has P C
  rw [System.setThread_threads]
  split
  · exact hth
  · exact hs.threads u

variable [TinyInst]

/-- **Every step keeps the session closed**, if what it brings in has the property, and
what it runs has it. -/
theorem Closed.step {cfg : Config μ} {s s' : System τ μ} {event : Event τ} (hs : Closed P C s)
    (hkept : KeptBy cfg.minimizer P C) (hok : FilesOk s)
    (hinit : s.shared.state = .restoreNeeded → s.shared.allEntries = [])
    (h : Step cfg s event s') (hbrings : Brings P s event) :
    Closed P C s' ∧
      ∀ t purpose sample outcome, event = .ran t purpose sample outcome → P sample := by
  cases h with
  | @thread t event th hl =>
      have hthread := hl.facts.thread
      obtain ⟨hpc, hran⟩ := hl.has hkept (fun e sample threadCoverage hcalled hj => by
        subst hcalled
        exact hbrings e hj) (hs.threads t)
      refine ⟨hs.update ⟨hpc, by rw [hl.facts.job]; exact (hs.threads t).job⟩ hs.entries hs.saved, ?_⟩
      rintro u purpose sample outcome rfl
      obtain rfl : u = t := hthread
      exact hran purpose sample outcome rfl
  | @getJob t choices shared job hpc hjob =>
      obtain ⟨hentries, hsaved⟩ := hs.call hok hinit hjob
      refine ⟨hs.update ⟨trivial, ?_⟩ hentries hsaved, nofun⟩
      rintro origin sample rfl
      exact hbrings
  | @interesting t sample stable var total after newStable newVar hpc _ =>
      have hth := hs.threads t
      refine ⟨hs.update ⟨?_, hth.job⟩ hs.entries hs.saved, nofun⟩
      have hsample := hth.pc
      rw [hpc] at hsample
      exact afterInteresting_has hkept _ newStable newVar total hsample
  | @number t savingFor sample hpc | @create t savingFor sample fileindex hpc =>
      have hth := hs.threads t
      have hsample := hth.pc
      rw [hpc] at hsample
      exact ⟨hs.update ⟨hsample, hth.job⟩ hs.entries hs.saved, nofun⟩
  | @push t savingFor sample fileindex sampleIndex hpc =>
      have hth := hs.threads t
      have hsample := hth.pc
      rw [hpc] at hsample
      refine ⟨hs.update ⟨?_, hth.job⟩ (fun entry hentry => ?_) hs.saved, nofun⟩
      · cases savingFor <;> trivial
      · rcases List.mem_append.1 hentry with hold | hnew
        · exact hs.entries entry hold
        · obtain rfl := List.mem_singleton.1 hnew
          exact hsample
  | @adjust t e entry result hasNew hpc hjob he =>
      refine ⟨hs.update ⟨?_, (hs.threads t).job⟩ (fun entry' hentry' => ?_) hs.saved, nofun⟩
      · dsimp only
        split <;> trivial
      · rcases List.mem_or_eq_of_mem_set hentry' with hold | rfl
        · exact hs.entries entry' hold
        · rw [(recordRun_same entry result hasNew).1.sample]
          exact hs.entries entry (List.mem_of_getElem? he)
  | @done t hpc =>
      obtain ⟨-, -, howns⟩ := jobDone_files s.shared (s.threads t).job (s.threads t).discardSample
      refine ⟨hs.update ⟨trivial, (hs.threads t).job⟩ (entries_of_owns howns hs.entries) ?_, nofun⟩
      rw [(jobDone_entries _ _ _).1]
      exact hs.saved

omit [DecidableEq τ] [TinyInst] in
/-- A session begins closed, if what it may restore has the property. -/
theorem closed_init {restore : Bool} {inputs : List Sample} {disk : Option SavedState}
    {files : ℕ → Option Sample}
    (hdisk : ∀ saved, disk = some saved → ∀ entry ∈ saved.entries, P entry.sample) :
    Closed P C (System.init restore inputs disk files : System τ μ) :=
  ⟨fun _ => ⟨trivial, nofun⟩, fun _ h => absurd h List.not_mem_nil, hdisk⟩

/-- **What is brought in decides about everything.**  In a run in which every sample that
is brought in has the property once all that the session has by then has it, everything
has it in the end, and so has every sample that was run. -/
theorem Closed.run {cfg : Config μ} {restore : Bool} {inputs : List Sample}
    {disk : Option SavedState} {files : ℕ → Option Sample} {tr : List (Event τ)} {s : System τ μ}
    {R : System τ μ → Event τ → Prop} (hkept : KeptBy cfg.minimizer P C)
    (hbrings : ∀ s event, Closed P C s → R s event → Brings P s event)
    (howned : ∀ saved, disk = some saved → saved.Owned files ∧ restore = true)
    (hdisk : ∀ saved, disk = some saved → ∀ entry ∈ saved.entries, P entry.sample)
    (hrun : Run (fun s event s' => Step cfg s event s' ∧ R s event)
      (System.init restore inputs disk files) tr s) :
    Closed P C s ∧ ∀ t purpose sample outcome, .ran t purpose sample outcome ∈ tr → P sample := by
  induction hrun with
  | refl => exact ⟨closed_init hdisk, nofun⟩
  | @snoc tr s event s' hrun hstep ih =>
      obtain ⟨hs, hran⟩ := ih
      obtain ⟨hstep, hR⟩ := hstep
      have hrun' : Run (Step cfg) (System.init restore inputs disk files) tr s :=
        hrun.mono fun _ _ _ h => h.1
      have hinit : s.shared.state = .restoreNeeded → s.shared.allEntries = [] := by
        intro hstate
        rw [eq_init_of_restoreNeeded hrun' hstate]
        rfl
      obtain ⟨hs', hran'⟩ := hs.step hkept (FilesOk.run howned hrun') hinit hstep (hbrings s event hs hR)
      refine ⟨hs', fun t purpose sample outcome hmem => ?_⟩
      rcases List.mem_append.1 hmem with hmem | hmem
      · exact hran t purpose sample outcome hmem
      · exact hran' t purpose sample outcome (List.mem_singleton.1 hmem).symm

end

end Fuzzer
end Jackalope
