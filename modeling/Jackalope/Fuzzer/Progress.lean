/-
# When a thread waits

`SynchronizeAndGetJob` hands out `WAIT` when it has nothing else, and the thread then sleeps
for a second and asks again.  Nothing wakes it, so whether the fuzzer can come to a stop, all
threads sleeping with samples left to process or to fuzz, depends on when `WAIT` is handed
out.  `waits_for_others` says when: before fuzzing, only while another thread is still
processing a sample; while fuzzing, exactly if it is a dry run or there is no entry that is
neither discarded nor in the FUZZ job of another thread.
-/

import Jackalope.Fuzzer.Phases

namespace Jackalope
namespace Fuzzer

open Foundation

variable {τ μ : Type}

/-! ### Nothing is left over -/

/-- There is nothing to hand out in this phase. -/
def Shared.Exhausted (f : Shared) : Prop :=
  (f.state = .inputSampleProcessing ∧ f.inputFiles = []) ∨
    (f.state = .serverSampleProcessing ∧ f.serverSamples = []) ∨
    (f.state = .generatingSamples ∧ minSamplesToGenerate ≤ f.sampleQueue.size)

/-- The end of input processing does not stay in it with nothing to do. -/
theorem leaveInputProcessing_busy (cfg : Config μ) (choices : Choices) (f : Shared)
    (h : (leaveInputProcessing cfg choices f).state = .inputSampleProcessing)
    (hnone : (leaveInputProcessing cfg choices f).inputFiles = []) :
    (leaveInputProcessing cfg choices f).samplesPending ≠ 0 := by
  unfold leaveInputProcessing at h hnone ⊢
  split at h
  · split at h <;> cases h
  · rename_i hstay
    rw [if_neg hstay] at hnone ⊢
    exact fun hpending => hstay ⟨h, hnone, hpending⟩

/-- Nor does that of server processing, and it does not go back: either samples of the
server are left or pending, or the phase is left.  -/
theorem leaveServerProcessing_busy (f : Shared) :
    ((leaveServerProcessing f).state = .serverSampleProcessing →
      (leaveServerProcessing f).serverSamples = [] → (leaveServerProcessing f).samplesPending ≠ 0) ∧
    ((leaveServerProcessing f).state = .inputSampleProcessing → leaveServerProcessing f = f) := by
  unfold leaveServerProcessing
  split
  · exact ⟨nofun, nofun⟩
  · rename_i hstay
    exact ⟨fun hstate hnone hpending => hstay ⟨hstate, hnone, hpending⟩, fun _ => rfl⟩

/-- The start of generation only leaves fuzzing, and changes nothing but the phase.  -/
theorem startGenerating_eq {cfg : Config μ} {f f' : Shared} (h : startGenerating cfg f = some f') :
    f' = f ∨ (f'.state = .generatingSamples ∧ f' = { f with state := .generatingSamples }) := by
  unfold startGenerating at h
  split at h
  · split at h
    · cases h
      exact Or.inr ⟨rfl, rfl⟩
    · cases h
  · cases h
    exact Or.inl rfl

/-- **A phase with nothing to hand out is left**, unless a sample is still pending: after
all transitions the phase has something to give, or is waiting for the threads that have not
reported their samples yet.  -/
theorem changeState_busy {cfg : Config μ} {choices : Choices} {f f' : Shared}
    (h : changeState cfg choices f = some f') (hnone : f'.Exhausted) : f'.samplesPending ≠ 0 := by
  unfold changeState at h
  obtain ⟨f₁, h₁, rfl⟩ := Option.map_eq_some_iff.1 h
  set f₀ := syncIfDue cfg choices (saveIfDue choices f)
  obtain ⟨hserver, hsame⟩ := leaveServerProcessing_busy (leaveInputProcessing cfg choices f₀)
  -- the phases of processing are those before generation starts
  have hprocessing : f₁.state ≠ .generatingSamples →
      f₁ = leaveServerProcessing (leaveInputProcessing cfg choices f₀) := fun hne => by
    rcases startGenerating_eq h₁ with heq | ⟨hgenerating, -⟩
    · exact heq
    · exact absurd hgenerating hne
  unfold stopGenerating at hnone ⊢
  split at hnone
  · rcases hnone with ⟨h, -⟩ | ⟨h, -⟩ | ⟨h, -⟩ <;> cases h
  · rename_i hstay
    rw [if_neg hstay]
    rcases hnone with ⟨hstate, hempty⟩ | ⟨hstate, hempty⟩ | ⟨hstate, henough⟩
    · have hf₁ := hprocessing (by rw [hstate]; nofun)
      rw [hf₁] at hstate
      rw [hf₁, hsame hstate] at hempty ⊢
      rw [hsame hstate] at hstate
      exact leaveInputProcessing_busy cfg choices f₀ hstate hempty
    · have hf₁ := hprocessing (by rw [hstate]; nofun)
      rw [hf₁] at hstate hempty ⊢
      exact hserver hstate hempty
    · exact fun hpending => hstay ⟨hstate, henough, hpending⟩

/-- `WAIT` is handed out when nothing else is: while fuzzing if the queue is empty or the
run is a dry one, and in the other phases if nothing is left to process.  -/
theorem createJob_wait {cfg : Config μ} {choices : Choices} {f f' : Shared}
    (h : createJob cfg choices f = (f', .wait)) (hs : f.state ≠ .restoreNeeded) :
    f' = f ∧ ((f.state = .fuzzing ∧ (cfg.dryRun = true ∨ f.sampleQueue[0]? = none)) ∨ f.Exhausted) := by
  unfold createJob at h
  cases hstate : f.state with
  | restoreNeeded => exact absurd hstate hs
  | fuzzing =>
      rw [hstate] at h
      dsimp only at h
      split at h
      · rename_i hdry
        cases h
        exact ⟨rfl, Or.inl ⟨rfl, Or.inl hdry⟩⟩
      · cases htop : f.sampleQueue[0]? with
        | none =>
            rw [htop] at h
            cases h
            exact ⟨rfl, Or.inl ⟨rfl, Or.inr rfl⟩⟩
        | some e =>
            rw [htop] at h
            cases h
  | inputSampleProcessing =>
      rw [hstate] at h
      cases hfiles : f.inputFiles with
      | nil =>
          rw [hfiles] at h
          cases h
          exact ⟨rfl, Or.inr (Or.inl ⟨hstate, hfiles⟩)⟩
      | cons file files =>
          rw [hfiles] at h
          cases h
  | serverSampleProcessing =>
      rw [hstate] at h
      cases hsamples : f.serverSamples with
      | nil =>
          rw [hsamples] at h
          cases h
          exact ⟨rfl, Or.inr (Or.inr (Or.inl ⟨hstate, hsamples⟩))⟩
      | cons sample samples =>
          rw [hsamples] at h
          cases h
  | generatingSamples =>
      rw [hstate] at h
      dsimp only at h
      split at h
      · rename_i henough
        cases h
        exact ⟨rfl, Or.inr (Or.inr (Or.inr ⟨hstate, henough⟩))⟩
      · cases h

/-! ### Who is at work -/

section

variable [Fintype τ] [DecidableEq τ]

/-- A thread that is counted, and is not `t`: if the count is not zero and `t` does not
count, another one does.  -/
theorem exists_ne_of_countThreads {p : Thread μ → Bool} {s : System τ μ} {t : τ}
    (ht : p (s.threads t) = false) (h : countThreads p s ≠ 0) : ∃ u, u ≠ t ∧ p (s.threads u) = true := by
  by_contra hnone
  refine h (countThreads_eq_zero.2 fun u => ?_)
  by_contra hu
  refine hnone ⟨u, ?_, by simpa using hu⟩
  rintro rfl
  exact hu ht

omit [DecidableEq τ] in
/-- Two threads are counted twice. -/
theorem two_le_countThreads {p : Thread μ → Bool} {s : System τ μ} {t u : τ} (hne : u ≠ t)
    (ht : p (s.threads t) = true) (hu : p (s.threads u) = true) : 2 ≤ countThreads p s := by
  rw [countThreads]
  exact Finset.one_lt_card.2 ⟨u, Finset.mem_filter.2 ⟨Finset.mem_univ u, hu⟩, t,
    Finset.mem_filter.2 ⟨Finset.mem_univ t, ht⟩, hne⟩

variable [TinyInst]

/-- **A thread waits for others only**, in every session, over every interleaving of its
threads, whatever earlier sessions saved and whatever the server answers.  Before fuzzing,
`WAIT` means that another thread is still processing a sample; while fuzzing, it is handed out
exactly if nothing may be fuzzed, or every entry is discarded or in another thread's job. -/
theorem waits_for_others {cfg : Config μ} {restore : Bool} {inputs : List Sample}
    {disk : Option SavedState} {files : ℕ → Option Sample} {tr : List (Event τ)}
    {s s' : System τ μ} {t : τ} {choices : Choices} {job : Job} (hdisk : Disk disk files)
    (hrun : Run (Step cfg) (System.init restore inputs disk files) tr s)
    (hstep : Step cfg s (.gotJob t choices job) s') :
    (job = .wait → s'.shared.state ≠ .fuzzing →
      ∃ u, u ≠ t ∧ (s.threads u).processing = true) ∧
    (s'.shared.state = .fuzzing → (job = .wait ↔ cfg.dryRun = true ∨
      ∀ e entry, s'.shared.allEntries[e]? = some entry →
        entry.discarded = 1 ∨ ∃ u, u ≠ t ∧ (s'.threads u).holds e = true)) := by
  have hconserved := (CorpusOk.run hdisk.counts (hrun.snoc hstep)).conserved
  have hpending := (Books.run hrun).pending
  rcases hstep.kinds with ⟨u, c, j, shared, heq, hpc, hjob, rfl⟩ | ⟨u, heq, -⟩ | hw
  · cases heq
    obtain ⟨f₁, f₂, h₁, h₂, h₃⟩ := synchronizeAndGetJob_eq hjob
    have hf₁ : f₁.state ≠ .restoreNeeded := by
      rcases restoreIfNeeded_eq h₁ with ⟨hne, rfl⟩ | ⟨saved, queue, -, -, -, rfl⟩
      · exact hne
      · exact nofun
    have hf₂ : f₂.state ≠ .restoreNeeded := by
      obtain ⟨state, new, last, rfl, -, hstate⟩ := changeState_eq h₂
      exact hstate hf₁
    refine ⟨?_, fun hfuzzing => ⟨?_, ?_⟩⟩
    · rintro rfl hphase
      obtain ⟨rfl, ⟨hfuzzing, -⟩ | hnone⟩ := createJob_wait h₃ hf₂
      · exact absurd hfuzzing hphase
      have hsame : shared.samplesPending = s.shared.samplesPending := (synchronizeAndGetJob_takes hjob).1
      refine exists_ne_of_countThreads (by rw [Thread.processing, hpc]; rfl) ?_
      rw [← hpending, ← hsame]
      exact changeState_busy h₂ hnone
    · rintro rfl
      obtain ⟨rfl, ⟨-, hdry | htop⟩ | hnone⟩ := createJob_wait h₃ hf₂
      · exact Or.inl hdry
      · -- the queue is empty, so an entry that is not discarded is in a job
        refine Or.inr fun e entry hentry => ?_
        have hplace := hconserved.place e entry hentry
        have hempty : shared.sampleQueue.toList.count e = 0 := by
          rw [Array.getElem?_eq_none_iff, Nat.le_zero, Array.size_eq_zero_iff] at htop
          rw [htop]
          rfl
        dsimp only at hplace
        rw [hempty] at hplace
        by_cases hd : entry.discarded = 1
        · exact Or.inl hd
        · refine Or.inr (exists_ne_of_countThreads (p := Thread.holds e) ?_ ?_)
          · simp [System.setThread, Thread.holds]
          · intro h0
            rw [h0] at hplace
            omega
      · rcases hnone with ⟨h, -⟩ | ⟨h, -⟩ | ⟨h, -⟩ <;> cases h.symm.trans hfuzzing
    · intro h
      rcases createJob_cases h₃ with ⟨rfl, -⟩ | ⟨e, hstate, htop, rfl, rfl⟩ |
        ⟨i, file, rest, hstate, -, -, rfl⟩ | ⟨i, sample, rest, hstate, -, -, rfl⟩ | ⟨hstate, -, rfl⟩
      · rfl
      · rcases h with hdry | hall
        · rw [createJob, hstate] at h₃
          dsimp only at h₃
          rw [if_pos hdry] at h₃
          cases congrArg Prod.snd h₃
        · -- the entry that is handed out is neither discarded nor in another job
          have hself : Thread.holds e ((s.setThread t { s.threads t with
              pc := .working, job := .fuzz e, discardSample := false }).threads t) = true := by
            simp [Thread.holds, Pc.inJob]
          obtain ⟨-, hone, entry, hentry, hdisc⟩ := hconserved.of_held (countThreads_pos hself)
          rcases hall e entry hentry with hd | ⟨u, hne, hu⟩
          · omega
          · have htwo := two_le_countThreads hne hself hu
            exact absurd (htwo.trans_eq hone) (by decide)
      · cases hstate.symm.trans hfuzzing
      · cases hstate.symm.trans hfuzzing
      · cases hstate.symm.trans hfuzzing
  · cases heq
  · cases hw.noJob

end

section

attribute [local instance] listTinyInst

/-- The only input file is handed out, so the other thread waits for it: it gets `WAIT`, and
the thread that it waits for is one that processes a sample and can take a step.  -/
theorem waits_for_others_input : ∃ (tr : List (Event Bool)) (s s' : System Bool SimpleTrimmerContext),
    Run (Step sessionConfig) (System.init false [sessionInput] none fun _ => none) tr s ∧
    Step sessionConfig s (.gotJob true (chosen false []) .wait) s' ∧
    ∃ u, u ≠ true ∧ (s.threads u).processing = true := by
  have hrun : ∃ s : System Bool SimpleTrimmerContext, Run (Step sessionConfig)
      (System.init false [sessionInput] none fun _ => none)
      [.gotJob false (chosen false []) (.processSample (.input 0) sessionInput)] s ∧
      ∃ s', Step sessionConfig s (.gotJob true (chosen false []) .wait) s' ∧
        s'.shared.state = .inputSampleProcessing :=
    ⟨_, Run.single (Step.getJob (t := false) (chosen false []) rfl rfl), _,
      Step.getJob (t := true) (chosen false []) rfl rfl, rfl⟩
  obtain ⟨s, hrun, s', hstep, hstate⟩ := hrun
  exact ⟨_, s, s', hrun, hstep, (waits_for_others (.fresh _) hrun hstep).1 rfl (by rw [hstate]; nofun)⟩

end

end Fuzzer
end Jackalope
