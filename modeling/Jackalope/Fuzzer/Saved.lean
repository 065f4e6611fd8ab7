/-
# Whether what is saved is backed

`state.dat` holds the coverage and the corpus.  A session restored from it ignores
the coverage, so for every offset that was credited to a sample the corpus should
hold the sample.  But `InterestingSample` merges the coverage in one section, and
`SaveSample` pushes the entry in another; in between the sample is minimized and
reported, and `SaveState` may run.  A thread is in the window while it is there
(`Pc.inWindow`), and `saved_backed_iff` says that this is the only way in which the
coverage and the corpus on disk come apart.

The server does both in one section, so it has no window.
-/

import Jackalope.Fuzzer.Calls
import Jackalope.Fuzzer.Phases

namespace Jackalope
namespace Fuzzer

open Foundation

variable {τ μ : Type}

/-! ### What it means -/

/-- Whether the event is the end of the window of its thread, or the begin of another
call. -/
def Event.ends : Event τ → Bool
  | .pushed .. | .called .. => true
  | _ => false

/-- The thread is still where it was before these events. -/
def Stays (t : τ) (tr : List (Event τ)) : Prop :=
  ∀ event ∈ tr, event.thread = t → event.ends = false

/-- The next that the thread does, as far as the corpus is concerned, is to push a
sample, and the entries have it. -/
def PushedNext (t : τ) (tr : List (Event τ)) (entries : List SampleQueueEntry) : Prop :=
  ∃ b job e sample b' entry, tr = b ++ .pushed t job e sample :: b' ∧ Stays t b ∧
    entries[e]? = some entry ∧ entry.sample = sample

/-- **The saved coverage is backed by the saved corpus**: every offset of it that a
call was credited with has the sample of that call among the entries. -/
def Backed (tr : List (Event τ)) (saved : SavedState) : Prop :=
  ∀ a t before newStable after b, tr = a ++ .merged t before newStable after :: b →
    ∀ p ∈ pairs newStable, p ∈ pairs saved.fuzzerCoverage → PushedNext t b saved.entries

/-! ### The window -/

/-- A thread stays in its call with every event that is not its own, and with those of its
own that do not end the call.  -/
theorem Stays.snoc {t : τ} {tr : List (Event τ)} (h : Stays t tr) {event : Event τ}
    (hevent : event.thread = t → event.ends = false) : Stays t (tr ++ [event]) := by
  intro e he
  rcases List.mem_append.1 he with he | he
  · exact h e he
  · rw [List.mem_singleton.1 he]
    exact hevent

/-- A call is in the window from the moment it is credited with coverage.  -/
theorem afterInteresting_inWindow (cfg : Config μ) (job : Job) (sample : Sample)
    (newStable newVar total : Coverage) :
    (afterInteresting cfg job sample newStable newVar total).inWindow = true ↔ newStable ≠ [] := by
  rcases afterInteresting_eq cfg job sample newStable newVar total with
    ⟨hnil, heq⟩ | ⟨hne, heq⟩ | ⟨hne, heq⟩ <;> rw [heq]
  · simp [Pc.inWindow, hnil]
  · simp [Pc.inWindow, hne]
  · simp [Pc.inWindow, hne]

section

variable [TinyInst] [DecidableEq τ]

/-- **In the window** a thread stays there, or pushes its sample and leaves.  There is no
other way out: neither the trimming nor the report nor the saving of the file gives the
credit back.  -/
theorem Step.window {cfg : Config μ} {s s' : System τ μ} {event : Event τ}
    (h : Step cfg s event s') (hw : (s.threads event.thread).pc.inWindow = true) :
    (event.ends = false ∧ (s'.threads event.thread).pc.inWindow = true) ∨
    ∃ job e sample entry, event = .pushed event.thread job e sample ∧
      s'.shared.allEntries[e]? = some entry ∧ entry.sample = sample ∧
      (s'.threads event.thread).pc.inWindow = false := by
  cases h with
  | @thread t event th hl =>
      have hf := hl.facts
      rw [hf.thread] at hw ⊢
      rw [System.setThread_self]
      refine Or.inl ⟨?_, hf.inWindow.trans hw⟩
      -- the calls begin outside the window
      cases hl with
      | process hpc => rw [hpc] at hw; cases hw
      | mutate mutated hpc => rw [hpc] at hw; cases hw
      | _ => rfl
  | getJob choices hpc | interesting hpc | adjust hpc | done hpc =>
      rw [Event.thread, hpc] at hw
      cases hw
  | @number t savingFor sample hpc =>
      refine Or.inl ⟨rfl, ?_⟩
      show ((s.setThread t _).threads t).pc.inWindow = true
      rw [System.setThread_self]
      rw [Event.thread, hpc] at hw
      cases savingFor
      · rfl
      · cases hw
  | @create t savingFor sample fileindex hpc =>
      refine Or.inl ⟨rfl, ?_⟩
      show ((s.setThread t _).threads t).pc.inWindow = true
      rw [System.setThread_self]
      rw [Event.thread, hpc] at hw
      cases savingFor
      · rfl
      · cases hw
  | @push t savingFor sample i j hpc =>
      refine Or.inr ⟨_, _, _, _, rfl, List.getElem?_concat_length, rfl, ?_⟩
      show ((s.setThread t _).threads t).pc.inWindow = false
      rw [System.setThread_self]
      exact (SavingFor.next_pc savingFor).2

/-- A thread merges outside the window: it enters the window by that merge, and has left it
with the sample of the one before.  -/
theorem Step.merged_outside {cfg : Config μ} {s s' : System τ μ} {t : τ}
    {before newStable after : Coverage} (h : Step cfg s (.merged t before newStable after) s') :
    (s.threads t).pc.inWindow = false := by
  cases h with
  | thread hl => exact absurd rfl (hl.facts.thread ▸ hl.facts.notShared.2.1 before newStable after)
  | interesting hpc =>
      rw [hpc]
      rfl

/-- **A thread enters the window** with the merge that credits its call: it is in the window
after its step exactly if the step was an `InterestingSample` that found something stable
and new.  -/
theorem Step.enters {cfg : Config μ} {s s' : System τ μ} {event : Event τ}
    (h : Step cfg s event s') (hout : (s.threads event.thread).pc.inWindow = false) :
    ((s'.threads event.thread).pc.inWindow = true →
      ∃ before newStable after, event = .merged event.thread before newStable after ∧
        (pairs newStable).Nonempty) ∧
    ∀ t before newStable after, event = .merged t before newStable after →
      (pairs newStable).Nonempty → (s'.threads t).pc.inWindow = true := by
  cases h with
  | @thread t event th hl =>
      have hf := hl.facts
      refine ⟨fun hin => ?_, ?_⟩
      · rw [hf.thread] at hin hout
        rw [System.setThread_self, hf.inWindow, hout] at hin
        cases hin
      · rintro u before newStable after rfl
        exact absurd rfl (hf.thread ▸ hf.notShared.2.1 before newStable after)
  | getJob | done =>
      refine ⟨fun hin => ?_, fun u before newStable after heq => by cases heq⟩
      simp [System.setThread, Event.thread, Pc.inWindow] at hin
  | @interesting t sample stable var total after newStable newVar hpc hint =>
      obtain ⟨-, hnewStable, -, hnil⟩ := interestingSample_eq hint
      have hiff : (pairs newStable).Nonempty ↔ newStable ≠ [] := by
        rw [hnewStable, Set.sdiff_nonempty, Ne, hnil]
      have hafter := afterInteresting_inWindow cfg (s.threads t).job sample newStable newVar total
      refine ⟨fun hin => ⟨_, _, _, rfl, ?_⟩, ?_⟩
      · replace hin : ((s.setThread t _).threads t).pc.inWindow = true := hin
        rw [System.setThread_self, hafter] at hin
        exact hiff.2 hin
      · rintro u before newStable' after' ⟨⟩ hne
        show ((s.setThread t _).threads t).pc.inWindow = true
        rw [System.setThread_self, hafter]
        exact hiff.1 hne
  | @number t savingFor sample hpc =>
      refine ⟨fun hin => ?_, fun u before newStable after heq => by cases heq⟩
      rw [Event.thread, hpc] at hout
      cases savingFor
      · cases hout
      · simp [System.setThread, Event.thread, Pc.inWindow] at hin
  | @create t savingFor sample fileindex hpc =>
      refine ⟨fun hin => ?_, fun u before newStable after heq => by cases heq⟩
      rw [Event.thread, hpc] at hout
      cases savingFor
      · cases hout
      · simp [System.setThread, Event.thread, Pc.inWindow] at hin
  | push =>
      refine ⟨fun hin => ?_, fun u before newStable after heq => by cases heq⟩
      simp [System.setThread, Event.thread, (SavingFor.next_pc _).2] at hin
  | @adjust t e entry result hasNew =>
      refine ⟨fun hin => ?_, fun u before newStable after heq => by cases heq⟩
      simp only [System.setThread, Event.thread, Function.update_self] at hin
      split at hin <;> cases hin

/-- A sample that was pushed stays among the entries, at the same index, through every later
step.  -/
theorem PushedNext.step {cfg : Config μ} {restore : Bool} {inputs : List Sample}
    {disk : Option SavedState} {files : ℕ → Option Sample} {tr b : List (Event τ)}
    {s s' : System τ μ} {event : Event τ} {t : τ}
    (hrun : Run (Step cfg) (System.init restore inputs disk files) tr s) (h : Step cfg s event s')
    (hp : PushedNext t b s.shared.allEntries) :
    PushedNext t (b ++ [event]) s'.shared.allEntries := by
  obtain ⟨b₁, job, e, sample, b₂, entry, rfl, hstays, he, hsample⟩ := hp
  obtain ⟨entry', he', hsame⟩ := h.entries_kept hrun he
  exact ⟨b₁, job, e, sample, b₂ ++ [event], entry', by simp, hstays, he',
    hsame.sample.trans hsample⟩

/-- **Every credit is backed, or its thread is in the window**, and a thread in the
window has a credit that is not. -/
structure Window (tr : List (Event τ)) (s : System τ μ) : Prop where
  credited : ∀ a t before newStable after b, tr = a ++ .merged t before newStable after :: b →
    (pairs newStable).Nonempty →
      PushedNext t b s.shared.allEntries ∨ ((s.threads t).pc.inWindow = true ∧ Stays t b)
  inside : ∀ t, (s.threads t).pc.inWindow = true → ∃ a before newStable after b,
    tr = a ++ .merged t before newStable after :: b ∧ (pairs newStable).Nonempty ∧ Stays t b

/-- **A step keeps the window**: a thread gets into it with a merge that credits it, and
leaves it with the push of its sample, so each credit is followed by a push of the same call
or still waits for one.  -/
theorem Window.step {cfg : Config μ} {restore : Bool} {inputs : List Sample}
    {disk : Option SavedState} {files : ℕ → Option Sample} {tr : List (Event τ)}
    {s s' : System τ μ} {event : Event τ}
    (hrun : Run (Step cfg) (System.init restore inputs disk files) tr s) (hI : Window tr s)
    (h : Step cfg s event s') : Window (tr ++ [event]) s' := by
  constructor
  · intro a t before newStable after b hsplit hne
    rcases trace_split_snoc.1 hsplit with ⟨rfl, hevent, rfl⟩ | ⟨b', rfl, htr⟩
    · -- the credit is new
      subst hevent
      exact Or.inr ⟨(h.enters h.merged_outside).2 t before newStable after rfl hne, nofun⟩
    · rcases hI.credited a t before newStable after b' htr hne with hpushed | ⟨hin, hstays⟩
      · exact Or.inl (hpushed.step hrun h)
      · by_cases ht : event.thread = t
        · subst ht
          rcases h.window hin with ⟨hends, hin'⟩ | ⟨job, e, sample, entry, heq, he, hsample, -⟩
          · exact Or.inr ⟨hin', hstays.snoc fun _ => hends⟩
          · exact Or.inl ⟨b', job, e, sample, [], entry, by rw [← heq], hstays, he, hsample⟩
        · rw [h.thread_eq ht]
          exact Or.inr ⟨hin, hstays.snoc fun ht' => absurd ht' ht⟩
  · intro t hin
    by_cases ht : event.thread = t
    · subst ht
      cases hbefore : (s.threads event.thread).pc.inWindow with
      | false =>
          obtain ⟨before, newStable, after, heq, hne⟩ := (h.enters hbefore).1 hin
          exact ⟨tr, before, newStable, after, [], by rw [← heq], hne, nofun⟩
      | true =>
          obtain ⟨a, before, newStable, after, b, rfl, hne, hstays⟩ := hI.inside _ hbefore
          rcases h.window hbefore with ⟨hends, -⟩ | ⟨-, -, -, -, -, -, -, hout⟩
          · exact ⟨a, before, newStable, after, b ++ [event], by simp, hne, hstays.snoc fun _ => hends⟩
          · rw [hout] at hin
            cases hin
    · rw [h.thread_eq ht] at hin
      obtain ⟨a, before, newStable, after, b, rfl, hne, hstays⟩ := hI.inside t hin
      exact ⟨a, before, newStable, after, b ++ [event], by simp, hne,
        hstays.snoc fun ht' => absurd ht' ht⟩

/-- So every run keeps it.  -/
theorem Window.run {cfg : Config μ} {restore : Bool} {inputs : List Sample}
    {disk : Option SavedState} {files : ℕ → Option Sample} {tr : List (Event τ)} {s : System τ μ}
    (h : Run (Step cfg) (System.init restore inputs disk files) tr s) : Window tr s := by
  induction h with
  | refl => exact ⟨by simp, nofun⟩
  | snoc hrun hstep ih => exact ih.step hrun hstep

/-! ### Saving -/

/-- **What would be saved now is backed iff no thread is in the window.** A thread in the
window has its coverage in `fuzzer_coverage` and has no entry in `all_entries` yet, and the
two are saved together.  -/
theorem backed_iff {cfg : Config μ} {restore : Bool} {inputs : List Sample}
    {disk : Option SavedState} {files : ℕ → Option Sample} {tr : List (Event τ)} {s : System τ μ}
    (h : Run (Step cfg) (System.init restore inputs disk files) tr s) :
    Backed tr (savedOf s.shared) ↔ ∀ t, (s.threads t).pc.inWindow = false := by
  have hwindow := Window.run h
  constructor
  · intro hbacked t
    by_contra hin
    obtain ⟨a, before, newStable, after, b, rfl, ⟨p, hp⟩, hstays⟩ :=
      hwindow.inside t (Bool.not_eq_false _ ▸ hin)
    have hcovered : pairs newStable ⊆ pairs s.shared.fuzzerCoverage :=
      (credits_disjoint h).2 newStable (by simp [Event.credit])
    obtain ⟨b₁, job, e, sample, b₂, entry, rfl, -⟩ :=
      hbacked a t before newStable after b rfl p hp (hcovered hp)
    cases hstays (.pushed t job e sample) (by simp) rfl
  · intro hnone a t before newStable after b hsplit p hp _
    rcases hwindow.credited a t before newStable after b hsplit ⟨p, hp⟩ with hpushed | ⟨hin, -⟩
    · exact hpushed
    · rw [hnone t] at hin
      cases hin

/-- In the run with this trace, `SaveState` writes `saved` when the trace is `a` and the
state is `u`. -/
def SavedAt (cfg : Config μ) (start : System τ μ) (tr : List (Event τ)) (s : System τ μ)
    (a : List (Event τ)) (u : System τ μ) (saved : SavedState) : Prop :=
  ∃ t choices job b u', tr = a ++ .gotJob t choices job :: b ∧ Run (Step cfg) start a u ∧
    Step cfg u (.gotJob t choices job) u' ∧ Run (Step cfg) u' b s ∧
    u.shared.state = .fuzzing ∧ choices.saveDue = true ∧ u'.shared.stateDat = some saved

/-- What is saved is what the threads share at that moment, and it is saved in the fuzzing
phase only.  -/
theorem SavedAt.eq {cfg : Config μ} {start s u : System τ μ} {tr a : List (Event τ)}
    {saved : SavedState} (h : SavedAt cfg start tr s a u saved) :
    Run (Step cfg) start a u ∧ u.shared.state = .fuzzing ∧ saved = savedOf u.shared := by
  obtain ⟨t, choices, job, b, u', -, hrun, hstep, -, hstate, hdue, hsaved⟩ := h
  refine ⟨hrun, hstate, ?_⟩
  rcases hstep.kinds with ⟨v, c, j, shared, heq, -, hjob, rfl⟩ | ⟨v, heq, -⟩ | hw
  · cases heq
    obtain ⟨f, hf, -, -, hdat, -⟩ := synchronizeAndGetJob_entries hjob
    rcases restoreIfNeeded_eq hf with ⟨-, rfl⟩ | ⟨saved', queue, hs, -⟩
    · rw [stateDatAfter, if_pos ⟨hstate, hdue⟩] at hdat
      exact (Option.some.inj (hdat.symm.trans hsaved)).symm
    · rw [hstate] at hs
      cases hs
  · cases heq
  · cases hw.noJob

/-- **What a run saves is backed iff it saves with no thread in the window.** The window is
from the merge in `InterestingSample` to the entry in `SaveSample`, and the condition is on
the state before each save.  The entries that the session restored are there in any case.
-/
theorem saved_backed_iff (cfg : Config μ) (restore : Bool) (inputs : List Sample)
    (disk : Option SavedState) (files : ℕ → Option Sample) (tr : List (Event τ)) (s : System τ μ) :
    (∀ a u saved, SavedAt cfg (System.init restore inputs disk files) tr s a u saved →
      Backed a saved ∧ (restore = true →
        ∃ restored, disk = some restored ∧ KeepsFiles restored.entries saved.entries)) ↔
    ∀ a u saved, SavedAt cfg (System.init restore inputs disk files) tr s a u saved →
      ∀ t, (u.threads t).pc.inWindow = false := by
  constructor
  · intro h a u saved hsaved
    obtain ⟨hrun, -, rfl⟩ := hsaved.eq
    exact (backed_iff hrun).1 (h a u _ hsaved).1
  · intro h a u saved hsaved
    have hnone := h a u saved hsaved
    obtain ⟨hrun, hstate, rfl⟩ := hsaved.eq
    refine ⟨(backed_iff hrun).2 hnone, ?_⟩
    rintro rfl
    exact restored_kept hrun (by rw [hstate]; exact nofun)

end

section

attribute [local instance] listTinyInst

/-- One thread is credited for a mutated sample and has not pushed it; another thread saves.
The session that restores what was saved has the coverage and no sample that reaches it.  -/
theorem run_window : ∃ (a : List (Event Bool)) (u u' : System Bool SimpleTrimmerContext),
    Run (Step sessionConfig) (System.init false [sessionInput] none fun _ => none) a u ∧
    Step sessionConfig u (.gotJob true (chosen true []) .wait) u' ∧
    u.shared.state = .fuzzing ∧ u'.shared.stateDat.isSome = true ∧
    (u.threads false).pc.inWindow = true :=
  ⟨_, _, _, Run.cons (Step.getJob (t := false) (chosen false []) rfl rfl)
    (Run.cons (Step.thread (t := false) (.process rfl rfl))
    (Run.cons (Step.thread (t := false) (.firstRun (reaches 1) rfl))
    (Run.cons (Step.interesting (t := false) rfl rfl)
    (Run.cons (Step.thread (t := false) (.report rfl))
    (Run.cons (Step.number (t := false) rfl)
    (Run.cons (Step.create (t := false) rfl)
    (Run.cons (Step.push (t := false) rfl)
    (Run.cons (Step.thread (t := false) (.finish rfl))
    (Run.cons (Step.thread (t := false) (.processed rfl rfl))
    (Run.cons (Step.done (t := false) rfl)
    (Run.cons (Step.getJob (t := false) (chosen false []) rfl rfl)
    (Run.cons (Step.thread (t := false) (.mutate serverSample rfl rfl (by decide)))
    (Run.cons (Step.thread (t := false) (.firstRun (reaches 2) rfl))
    (Run.single (Step.interesting (t := false) rfl rfl))))))))))))))),
    Step.getJob (t := true) (chosen true []) rfl rfl, rfl, rfl, rfl⟩

/-- **A save in the window is not backed.** The thread has merged its coverage and not
published its entry when another one saves, so the session that restores this state has
coverage that no sample of its corpus reaches.  -/
theorem not_saved_backed : ¬ ∀ (tr : List (Event Bool)) (s : System Bool SimpleTrimmerContext) a u
    saved, SavedAt sessionConfig (System.init false [sessionInput] none fun _ => none) tr s a u saved →
      Backed a saved := by
  intro h
  obtain ⟨a, u, u', hrun, hstep, hstate, hsome, hin⟩ := run_window
  obtain ⟨saved, hsaved⟩ := Option.isSome_iff_exists.1 hsome
  have hat : SavedAt sessionConfig (System.init false [sessionInput] none fun _ => none)
      (a ++ [.gotJob true (chosen true []) .wait]) u' a u saved :=
    ⟨true, chosen true [], .wait, [], u', rfl, hrun, hstep, Run.refl, hstate, rfl, hsaved⟩
  have hbacked := h _ _ _ _ _ hat
  rw [hat.eq.2.2] at hbacked
  rw [(backed_iff hrun).1 hbacked false] at hin
  cases hin

end

end Fuzzer
end Jackalope
