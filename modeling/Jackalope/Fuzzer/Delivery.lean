/-
# What reaches the target

`SHMSampleDelivery::DeliverSample` copies `sample->size` bytes into a shared memory
with room for `Sample::max_size`, and checks nothing.  So whoever makes a sample
has to.  Input files are trimmed, mutated samples that are too large are skipped,
and the trimmer only makes samples smaller; what the server sends and what a
generator makes is taken as it is.  `delivered_within` says that these two are the
only way in for a sample that is too large, and `not_delivered_within` is a run in
which one comes in.
-/

import Jackalope.Fuzzer.Corpus
import Jackalope.Fuzzer.Samples

namespace Jackalope
namespace Fuzzer

open Foundation

variable {τ μ : Type}

/-- From a sample within the bound the minimizer makes none beyond it. -/
def Minimizer.KeepsWithin (minimizer : Minimizer μ) (maxSize : ℕ) : Prop :=
  ∀ sample context test context', sample.size ≤ maxSize →
    minimizer.minimizeStep sample context = some (test, context') → test.size ≤ maxSize

/-- The minimizer that is used by default keeps within every bound: what it proposes is
shorter than what it begins with.  -/
theorem simpleTrimmer_keepsWithin (maxSize : ℕ) : simpleTrimmer.KeepsWithin maxSize :=
  fun _ _ _ _ hle h => (SimpleTrimmer.size_minimizeStep h).le.trans hle

/-- A property of the size, whatever the job. -/
def within (cfg : Config μ) (_job : Job) (sample : Sample) : Prop := sample.size ≤ cfg.maxSize

/-- The bound is one of the properties of samples that every way into `RunSample` but two
keeps: mutated samples are compared with it, and the minimizer keeps within it.  -/
theorem feeds_within {cfg : Config μ} (hmin : cfg.minimizer.KeepsWithin cfg.maxSize) :
    Feeds cfg (within cfg) :=
  ⟨fun _ _ hsize => not_lt.1 hsize, fun _ sample context test context' => hmin sample context test context'⟩

/-- An input file that is too large is trimmed before it is handed out, so the sample of the
job is within `max_sample_size` whatever the file is.  -/
theorem synchronizeAndGetJob_input {cfg : Config μ} {choices : Choices} {f f' : Shared} {i : ℕ}
    {sample : Sample}
    (h : synchronizeAndGetJob cfg choices f = some (f', .processSample (.input i) sample)) :
    sample.size ≤ cfg.maxSize := by
  obtain ⟨f₁, f₂, -, -, h₃⟩ := synchronizeAndGetJob_eq h
  rcases createJob_cases h₃ with ⟨⟨⟩, -⟩ | ⟨e, -, -, ⟨⟩, -⟩ | ⟨j, file, rest, -, -, hjob, -⟩ |
    ⟨j, file, rest, -, -, ⟨⟩, -⟩ | ⟨-, ⟨⟩, -⟩
  cases hjob
  split
  · rw [Sample.size_trim]
    exact Nat.min_le_left _ _
  · omega

section

variable [TinyInst] [DecidableEq τ]

/-- **What reaches the target is within the bound**, in a run in which every sample from the
server and from the generator that was handed out is.  Samples of the input directory are
trimmed, mutated samples over the bound are skipped, and the minimizer keeps the bound; only
these two sources are handed out as they come.  -/
theorem delivered_within {cfg : Config μ} {restore : Bool} {inputs : List Sample}
    {disk : Option SavedState} {files : ℕ → Option Sample} {tr : List (Event τ)} {s : System τ μ}
    (hmin : cfg.minimizer.KeepsWithin cfg.maxSize)
    (hrun : Run (Step cfg) (System.init restore inputs disk files) tr s)
    (hunchecked : ∀ t choices origin sample,
      .gotJob t choices (.processSample origin sample) ∈ tr → (∀ i, origin ≠ .input i) →
        sample.size ≤ cfg.maxSize) :
    ∀ t purpose sample outcome, .ran t purpose sample outcome ∈ tr → sample.size ≤ cfg.maxSize := by
  have hinv : (∀ t, (s.threads t).Fed (within cfg)) ∧
      ∀ t purpose sample outcome, .ran t purpose sample outcome ∈ tr →
        sample.size ≤ cfg.maxSize := by
    induction hrun with
    | refl => exact ⟨fun t => ⟨nofun, trivial⟩, nofun⟩
    | @snoc tr s event s' hrun hstep ih =>
        obtain ⟨hfed, hran⟩ := ih fun t choices origin sample hmem =>
          hunchecked t choices origin sample (List.mem_append_left _ hmem)
        -- the sample of a job is trimmed, or within the bound by assumption
        have hnew : ∀ origin sample, event.job = some (.processSample origin sample) →
            within cfg (.processSample origin sample) sample := by
          intro origin sample hjob
          rcases hstep.kinds with ⟨t, choices, job, shared, rfl, -, hsync, -⟩ | ⟨t, rfl, -⟩ | hw
          · cases hjob
            by_cases hin : ∃ i, origin = .input i
            · obtain ⟨i, rfl⟩ := hin
              exact synchronizeAndGetJob_input hsync
            · exact hunchecked t choices origin sample
                (List.mem_append_right _ (List.mem_singleton_self _)) fun i hi => hin ⟨i, hi⟩
          · cases hjob
          · rw [hw.noJob] at hjob
            cases hjob
        obtain ⟨hfed', hran', -⟩ := hstep.fed (feeds_within hmin) hnew hfed
        refine ⟨hfed', fun t purpose sample outcome hmem => ?_⟩
        rcases List.mem_append.1 hmem with hmem | hmem
        · exact hran t purpose sample outcome hmem
        · exact hran' t purpose sample outcome (List.mem_singleton.1 hmem).symm
  exact hinv.2

end

section

attribute [local instance] listTinyInst

/-- A sample that just fits, from the server. -/
def fittingSample : Sample := Sample.init (str "ABCD")

/-- **A sample from the server that just fits.**  One thread processes the input file, which
becomes the first entry; then the other one is handed a sample from the server that is as
large as the bound, and runs it. -/
theorem delivered_within_server : ∃ (tr : List (Event Bool)) (s : System Bool SimpleTrimmerContext),
    Run (Step sessionConfig) (System.init false [sessionInput] none fun _ => none) tr s ∧
    .ran false .reproduce sessionInput (reaches 1) ∈ tr ∧
    .gotJob true (chosen false [fittingSample]) (.processSample (.server 0) fittingSample) ∈ tr ∧
    .ran true .reproduce fittingSample (reaches 2) ∈ tr ∧
    fittingSample.size = sessionConfig.maxSize ∧
    ∀ t purpose sample outcome, .ran t purpose sample outcome ∈ tr →
      sample.size ≤ sessionConfig.maxSize := by
  have hrun : ∃ (s : System Bool SimpleTrimmerContext), Run (Step sessionConfig)
      (System.init false [sessionInput] none fun _ => none)
      [.gotJob false (chosen false []) (.processSample (.input 0) sessionInput),
        .called false sessionInput [], .ran false .reproduce sessionInput (reaches 1),
        .merged false [] (oneOffset 1) (oneOffset 1), .moved false, .numbered false 0, .moved false,
        .pushed false (.processSample (.input 0) sessionInput) 0 sessionInput, .moved false,
        .returned false (.processSample (.input 0) sessionInput) .ok true,
        .done false (.processSample (.input 0) sessionInput),
        .gotJob true (chosen false [fittingSample]) (.processSample (.server 0) fittingSample),
        .called true fittingSample [], .ran true .reproduce fittingSample (reaches 2)] s :=
    ⟨_, Run.cons (Step.getJob (t := false) (chosen false []) rfl rfl)
      (Run.cons (Step.thread (t := false) (.process rfl rfl))
      (Run.cons (Step.thread (t := false) (.firstRun (reaches 1) rfl))
      (Run.cons (Step.interesting (t := false) rfl rfl)
      (Run.cons (Step.thread (t := false) (.report rfl))
      (Run.cons (Step.number (t := false) rfl)
      (Run.cons (Step.create (t := false) rfl)
      (Run.cons (Step.push (t := false) rfl)
      (Run.cons (Step.thread (t := false) (.finish rfl))
      (Run.cons (Step.thread (t := false) (.processed rfl rfl))
      (Run.cons (Step.done (t := false) rfl)
      (Run.cons (Step.getJob (t := true) (chosen false [fittingSample]) rfl rfl)
      (Run.cons (Step.thread (t := true) (.process rfl rfl))
      (Run.single (Step.thread (t := true) (.firstRun (reaches 2) rfl)))))))))))))))⟩
  obtain ⟨s, hrun⟩ := hrun
  refine ⟨_, s, hrun, by simp, by simp, by simp, rfl,
    delivered_within (simpleTrimmer_keepsWithin _) hrun ?_⟩
  intro t choices origin sample hmem horigin
  simp only [List.mem_cons, Event.gotJob.injEq, Job.processSample.injEq, reduceCtorEq,
    List.not_mem_nil, or_false, false_or] at hmem
  rcases hmem with ⟨-, -, rfl, -⟩ | ⟨-, -, -, rfl⟩
  · exact absurd rfl (horigin 0)
  · exact Nat.le_refl 4

/-- A sample that is too large, from the server. -/
def largeSample : Sample := Sample.init (str "ABCDE")

/-- **A sample from the server may be too large.** It is handed out and run as it is:
`CreateJob` trims what comes from the input directory and nothing else, so a target that can
take `max_sample_size` bytes is given more.  -/
theorem not_delivered_within : ¬ ∀ (tr : List (Event Bool)) (s : System Bool SimpleTrimmerContext),
    Run (Step sessionConfig) (System.init false [] none fun _ => none) tr s →
    ∀ t purpose sample outcome, .ran t purpose sample outcome ∈ tr →
      sample.size ≤ sessionConfig.maxSize := by
  intro h
  have hrun : ∃ (s : System Bool SimpleTrimmerContext), Run (Step sessionConfig)
      (System.init false [] none fun _ => none)
      [.gotJob false (chosen false [largeSample]) (.processSample (.server 0) largeSample),
        .called false largeSample [], .ran false .reproduce largeSample (reaches 1)] s :=
    ⟨_, Run.cons (Step.getJob (t := false) (chosen false [largeSample]) rfl rfl)
      (Run.cons (Step.thread (t := false) (.process rfl rfl))
      (Run.single (Step.thread (t := false) (.firstRun (reaches 1) rfl))))⟩
  obtain ⟨s, hrun⟩ := hrun
  have hle := h _ s hrun false .reproduce largeSample (reaches 1) (by simp)
  exact absurd hle (by decide)

end

end Fuzzer
end Jackalope
