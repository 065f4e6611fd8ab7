/-
# What trimming leaves of a sample

`Fuzzer::MinimizeSample` (`fuzzer.cpp`, lines 494-523) with `SimpleTrimmer`, for a target
that answers each byte string in one way.  `minimizeLoop` is the loop, with the tests it
made; `run_minimizeLoop` says that the steps of a thread are its rounds.

At the head of the loop the test sample is the sample.  A test that is kept takes bytes
off the sample, and one that is rejected halves `trim_step`, so their sum bounds the
rounds.  The step gets to 0 only by a rejected test that took off one byte, and after
that test the sample does not change any more: that is why the last byte is needed.
-/

import Jackalope.Fuzzer.Threads

namespace Jackalope
namespace Fuzzer

open Foundation

variable {τ μ : Type}

section

variable [TinyInst]

/-- Whether `MinimizeSample` keeps a test sample whose run returned OK. -/
def keepsTest (isReturnValueInteresting : UInt64 → Bool) (stableCoverage : Coverage)
    (outcome : Outcome) : Bool :=
  isReturnValueInteresting outcome.returnValue && coverageContains outcome.coverage stableCoverage

/-- One test: the sample before `MinimizeStep`, the test sample, and the context. -/
structure TrimTest (μ : Type) where
  sample : Sample
  testSample : Sample
  context : μ

/-- The loop of `MinimizeSample`, for at most so many rounds: the sample it leaves and
the tests it made, or none when the rounds do not suffice. -/
def Minimizer.minimizeLoop (minimizer : Minimizer μ) (isReturnValueInteresting : UInt64 → Bool)
    (stableCoverage : Coverage) (target : Bytes → Outcome) :
    ℕ → Sample → Sample → μ → Option (Sample × List (TrimTest μ))
  | 0, _, _, _ => none
  | fuel + 1, sample, testSample, context =>
      match minimizer.minimizeStep testSample context with
      | none => some (sample, [])
      | some (testSample', context) =>
          let outcome := target testSample'.bytes
          let loop := minimizer.minimizeLoop isReturnValueInteresting stableCoverage target fuel
          let rest :=
            if outcome.result ≠ .ok then some (sample, [])
            else if keepsTest isReturnValueInteresting stableCoverage outcome = false then
              loop sample sample (minimizer.reportFail testSample' context)
            else loop testSample' testSample' (minimizer.reportSuccess testSample' context)
          rest.map fun r => (r.1, ⟨testSample, testSample', context⟩ :: r.2)

/-- `Fuzzer::MinimizeSample`. -/
def Minimizer.minimizeSample (minimizer : Minimizer μ) (isReturnValueInteresting : UInt64 → Bool)
    (stableCoverage : Coverage) (target : Bytes → Outcome) (fuel : ℕ) (sample : Sample) :
    Option (Sample × List (TrimTest μ)) :=
  minimizer.minimizeLoop isReturnValueInteresting stableCoverage target fuel sample sample
    (minimizer.createContext sample)

/-! ### The loop is what a thread does -/

/-- What is seen of a thread that makes these tests. -/
def testEvents (t : τ) (target : Bytes → Outcome) (tests : List (TrimTest μ)) : List (Event τ) :=
  tests.map fun test => .ran t .minimize test.testSample (target test.testSample.bytes)

/-- A thread in `MinimizeSample` goes through the rounds of the loop and reports what the
loop leaves.  The trace has one test run for each round; where the minimizer has no further
proposal, one silent step leads out of the loop.  -/
theorem run_minimizeLoop {cfg : Config μ} {t : τ} {stableCoverage var total : Coverage}
    {target : Bytes → Outcome} {fuel : ℕ} {sample testSample result : Sample} {context : μ}
    {tests : List (TrimTest μ)} {th : Thread μ}
    (hpc : th.pc = .minimizing sample testSample context stableCoverage var total)
    (h : cfg.minimizer.minimizeLoop cfg.isReturnValueInteresting stableCoverage target fuel sample
      testSample context = some (result, tests)) :
    ∃ tr, (tr = testEvents t target tests ∨ tr = testEvents t target tests ++ [.moved t]) ∧
      Run (LocalStep cfg t) th tr { th with pc := .reporting result var total } := by
  induction fuel generalizing sample testSample context tests th with
  | zero => cases h
  | succ fuel ih =>
      rw [Minimizer.minimizeLoop] at h
      rcases hstep : cfg.minimizer.minimizeStep testSample context with _ | ⟨testSample', context'⟩
      · rw [hstep] at h
        cases h
        exact ⟨[.moved t], Or.inr rfl, Run.single (.minimizeDone hpc hstep)⟩
      · rw [hstep] at h
        obtain ⟨⟨result', tests'⟩, hrest, hr⟩ := Option.map_eq_some_iff.1 h
        cases hr
        have hfirst := LocalStep.minimize (t := t) (target testSample'.bytes) hpc hstep
        unfold afterTest at hfirst
        split at hrest
        · rename_i hresult
          cases hrest
          rw [if_pos hresult] at hfirst
          exact ⟨_, Or.inl rfl, Run.single hfirst⟩
        rename_i hresult
        rw [if_neg hresult] at hfirst
        split at hrest
        · rename_i hkeeps
          rw [keepsTest, Bool.and_eq_false_iff] at hkeeps
          rw [if_pos hkeeps] at hfirst
          obtain ⟨tr, htr, hrun⟩ := @ih _ _ _ _ { th with pc := _ } rfl hrest
          exact ⟨_ :: tr, htr.imp (congrArg _) (congrArg _), Run.cons hfirst hrun⟩
        · rename_i hkeeps
          rw [keepsTest, Bool.and_eq_false_iff] at hkeeps
          rw [if_neg hkeeps] at hfirst
          obtain ⟨tr, htr, hrun⟩ := @ih _ _ _ _ { th with pc := _ } rfl hrest
          exact ⟨_ :: tr, htr.imp (congrArg _) (congrArg _), Run.cons hfirst hrun⟩

end

/-! ### The steps of `SimpleTrimmer` -/

namespace SimpleTrimmer

/-- Halving ends at 0 only where it began at 0: a step of one is smaller than a sample of
two bytes.  -/
theorem shrinkStep_pos {size : ℕ} (h : 1 < size) {fuel trimStep : ℕ} (hs : 0 < trimStep) :
    0 < shrinkStep size fuel trimStep := by
  induction fuel generalizing trimStep with
  | zero => exact hs
  | succ fuel ih =>
      rw [shrinkStep]
      split
      · exact ih (by omega)
      · exact hs

/-- Halving does not make the step larger, so from one round to the next it only goes down.
-/
theorem shrinkStep_le (size fuel trimStep : ℕ) : shrinkStep size fuel trimStep ≤ trimStep := by
  induction fuel generalizing trimStep with
  | zero => exact le_rfl
  | succ fuel ih =>
      rw [shrinkStep]
      split
      · exact (ih _).trans (Nat.div_le_self _ _)
      · exact le_rfl

/-- **What a step does**: it is done with a sample of at most one byte and when
`trim_step` is 0, and otherwise takes off fewer bytes than there are. -/
theorem minimizeStep_cases (sample : Sample) (context : SimpleTrimmerContext) :
    minimizeStep sample context = none ∧ (sample.size ≤ 1 ∨ context.trimStep = 0) ∨
      ∃ test trimStep, minimizeStep sample context = some (test, ⟨trimStep⟩) ∧
        0 < trimStep ∧ trimStep < sample.size ∧ trimStep ≤ context.trimStep ∧
        test.bytes = sample.bytes.take (sample.size - trimStep) := by
  unfold minimizeStep
  by_cases hsize : sample.size ≤ 1
  · rw [if_pos hsize]
    exact Or.inl ⟨rfl, Or.inl hsize⟩
  rw [if_neg hsize]
  have hlt := @shrinkStep_lt sample.size (by omega) _ _ (le_refl context.trimStep)
  have hle := shrinkStep_le sample.size context.trimStep context.trimStep
  by_cases hzero : shrinkStep sample.size context.trimStep context.trimStep = 0
  · left
    refine ⟨if_pos hzero, Or.inr ?_⟩
    rcases Nat.eq_zero_or_pos context.trimStep with h0 | hpos
    · exact h0
    · have := @shrinkStep_pos sample.size (by omega) context.trimStep _ hpos
      omega
  · right
    refine ⟨_, _, if_neg hzero, by omega, hlt, hle, ?_⟩
    rw [Sample.trim, if_neg (by omega)]

end SimpleTrimmer

/-! ### What the loop leaves -/

/-- The step is not larger than the sample, and the test took that many bytes off it. -/
def TrimTest.Trims (test : TrimTest SimpleTrimmerContext) : Prop :=
  test.context.trimStep ≤ test.sample.size ∧
    test.testSample.bytes = test.sample.bytes.take (test.sample.size - test.context.trimStep)

/-- What the loop makes of a sample, with these tests. -/
structure Trimmed (isReturnValueInteresting : UInt64 → Bool) (stableCoverage : Coverage)
    (target : Bytes → Outcome) (sample result : Sample)
    (tests : List (TrimTest SimpleTrimmerContext)) : Prop where
  isPrefix : result.bytes <+: sample.bytes
  pos : 0 < sample.size → 0 < result.size
  /-- The result is the sample, or it was run and keeps what the sample is kept for. -/
  tested : result = sample ∨ (∃ test ∈ tests, test.testSample = result) ∧
    (target result.bytes).result = .ok ∧
    isReturnValueInteresting (target result.bytes).returnValue = true ∧
    pairs stableCoverage ⊆ pairs (target result.bytes).coverage
  trims : ∀ test ∈ tests, test.Trims

variable {isReturnValueInteresting : UInt64 → Bool} {stableCoverage : Coverage}
  {target : Bytes → Outcome} {sample result : Sample} {test : TrimTest SimpleTrimmerContext}
  {tests : List (TrimTest SimpleTrimmerContext)}

/-- No test at all. -/
theorem Trimmed.nil :
    Trimmed isReturnValueInteresting stableCoverage target sample sample [] :=
  ⟨List.prefix_rfl, id, Or.inl rfl, fun _ h => absurd h List.not_mem_nil⟩

/-- A test that is not kept, and the tests that follow: the later rounds begin with the same
sample, so what they say of the result is right.  -/
theorem Trimmed.cons (h : Trimmed isReturnValueInteresting stableCoverage target sample result tests)
    (htrims : test.Trims) :
    Trimmed isReturnValueInteresting stableCoverage target sample result (test :: tests) := by
  refine ⟨h.isPrefix, h.pos, ?_, ?_⟩
  · rcases h.tested with heq | ⟨⟨test', hmem, htest'⟩, hrun⟩
    · exact Or.inl heq
    · exact Or.inr ⟨⟨test', List.mem_cons_of_mem _ hmem, htest'⟩, hrun⟩
  · intro test' hmem
    rcases List.mem_cons.1 hmem with rfl | hmem
    · exact htrims
    · exact h.trims test' hmem

section

variable [TinyInst]

/-- The run returned OK, and its sample was not kept. -/
def Rejects (isReturnValueInteresting : UInt64 → Bool) (stableCoverage : Coverage)
    (outcome : Outcome) : Prop :=
  outcome.result = .ok ∧ keepsTest isReturnValueInteresting stableCoverage outcome = false

/-- The result without its last byte was tested and rejected. -/
def LastByteNeeded (isReturnValueInteresting : UInt64 → Bool) (stableCoverage : Coverage)
    (target : Bytes → Outcome) (result : Sample)
    (tests : List (TrimTest SimpleTrimmerContext)) : Prop :=
  ∃ test ∈ tests, test.testSample.bytes = result.bytes.dropLast ∧
    Rejects isReturnValueInteresting stableCoverage (target test.testSample.bytes)

/-- One test more that was not accepted, behind which the last byte is still the one that is
needed.  -/
theorem LastByteNeeded.cons (test : TrimTest SimpleTrimmerContext)
    (h : LastByteNeeded isReturnValueInteresting stableCoverage target result tests) :
    LastByteNeeded isReturnValueInteresting stableCoverage target result (test :: tests) := by
  obtain ⟨test', hmem, htest'⟩ := h
  exact ⟨test', List.mem_cons_of_mem _ hmem, htest'⟩

/-- A test that is kept, and the tests that follow: what the later rounds begin with is the
test sample, which is shorter and still has the coverage.  -/
theorem Trimmed.cons_kept
    (h : Trimmed isReturnValueInteresting stableCoverage target test.testSample result tests)
    (hpos : 0 < test.testSample.size) (htrims : test.Trims)
    (hok : (target test.testSample.bytes).result = .ok)
    (hkeeps : keepsTest isReturnValueInteresting stableCoverage (target test.testSample.bytes) = true) :
    Trimmed isReturnValueInteresting stableCoverage target test.sample result (test :: tests) := by
  rw [keepsTest, Bool.and_eq_true] at hkeeps
  have hcons := h.cons htrims
  have hprefix : test.testSample.bytes <+: test.sample.bytes := by
    rw [htrims.2]
    exact List.take_prefix _ _
  refine ⟨h.isPrefix.trans hprefix, fun _ => h.pos hpos, Or.inr ?_, hcons.trims⟩
  rcases hcons.tested with rfl | htested
  · exact ⟨⟨test, List.mem_cons_self, rfl⟩, hok, hkeeps.1, (contains_iff _ _).1 hkeeps.2⟩
  · exact htested

/-- **The loop**, from a sample and a step.  When it ends without a bad run, the sample
has at most one byte, or the last byte is needed, or the step was 0 to begin with. -/
theorem minimizeLoop_spec (isReturnValueInteresting : UInt64 → Bool) (stableCoverage : Coverage)
    (target : Bytes → Outcome) (n : ℕ) (sample : Sample) (context : SimpleTrimmerContext)
    (hn : sample.size + context.trimStep ≤ n) :
    ∃ result tests, (∀ fuel, n < fuel → simpleTrimmer.minimizeLoop isReturnValueInteresting
        stableCoverage target fuel sample sample context = some (result, tests)) ∧
      Trimmed isReturnValueInteresting stableCoverage target sample result tests ∧
      ((∀ test ∈ tests, (target test.testSample.bytes).result = .ok) → result.size ≤ 1 ∨
        LastByteNeeded isReturnValueInteresting stableCoverage target result tests ∨
        result = sample ∧ context.trimStep = 0) := by
  induction n using Nat.strong_induction_on generalizing sample context with
  | _ n ih =>
      -- one round, for any sufficient number of them
      have hround : ∀ fuel, n < fuel → ∃ fuel', fuel = fuel' + 1 := fun fuel hfuel =>
        ⟨fuel - 1, by omega⟩
      rcases SimpleTrimmer.minimizeStep_cases sample context with
        ⟨hnone, hdone⟩ | ⟨testSample, trimStep, hsome, hpos, hlt, hle, htest⟩
      · refine ⟨sample, [], fun fuel hfuel => ?_, Trimmed.nil, fun _ => ?_⟩
        · obtain ⟨fuel, rfl⟩ := hround fuel hfuel
          rw [Minimizer.minimizeLoop]
          simp only [simpleTrimmer, hnone]
        · rcases hdone with hsize | hzero
          · exact Or.inl hsize
          · exact Or.inr (Or.inr ⟨rfl, hzero⟩)
      have hsize : testSample.size = sample.size - trimStep := by
        rw [Sample.size, htest, List.length_take, Sample.size]
        omega
      have htrims : TrimTest.Trims ⟨sample, testSample, ⟨trimStep⟩⟩ := ⟨hlt.le, htest⟩
      by_cases hok : (target testSample.bytes).result = .ok
      · rcases hkeeps : keepsTest isReturnValueInteresting stableCoverage (target testSample.bytes)
        · -- rejected: the sample stays and the step is halved
          obtain ⟨result, tests, hloop, htrimmed, hlast⟩ :=
            ih (sample.size + trimStep / 2) (by omega) sample ⟨trimStep / 2⟩ le_rfl
          refine ⟨result, ⟨sample, testSample, ⟨trimStep⟩⟩ :: tests, fun fuel hfuel => ?_,
            htrimmed.cons htrims, fun hall => ?_⟩
          · obtain ⟨fuel, rfl⟩ := hround fuel hfuel
            rw [Minimizer.minimizeLoop]
            have hnext := hloop fuel (by omega)
            simp only [simpleTrimmer, SimpleTrimmer.reportFail] at hnext ⊢
            simp [hsome, hok, hkeeps, hnext]
          · rcases hlast fun test h => hall test (List.mem_cons_of_mem _ h) with
              hone | hneeded | ⟨rfl, hzero⟩
            · exact Or.inl hone
            · exact Or.inr (Or.inl (hneeded.cons _))
            · -- the step was 1, so the test took off the last byte
              have hone : trimStep = 1 := by
                have : trimStep / 2 = 0 := hzero
                omega
              refine Or.inr (Or.inl ⟨_, List.mem_cons_self, ?_, hok, hkeeps⟩)
              show testSample.bytes = _
              rw [htest, hone, List.dropLast_eq_take]
              rfl
        · -- kept: the sample is the test sample
          have hpos' : 0 < testSample.size := by omega
          obtain ⟨result, tests, hloop, htrimmed, hlast⟩ :=
            ih (testSample.size + trimStep) (by omega) testSample ⟨trimStep⟩ le_rfl
          refine ⟨result, ⟨sample, testSample, ⟨trimStep⟩⟩ :: tests, fun fuel hfuel => ?_,
            Trimmed.cons_kept htrimmed hpos' htrims hok hkeeps, fun hall => ?_⟩
          · obtain ⟨fuel, rfl⟩ := hround fuel hfuel
            rw [Minimizer.minimizeLoop]
            have hnext := hloop fuel (by omega)
            simp only [simpleTrimmer] at hnext ⊢
            simp [hsome, hok, hkeeps, hnext]
          · rcases hlast fun test h => hall test (List.mem_cons_of_mem _ h) with
              hone | hneeded | ⟨_, hzero⟩
            · exact Or.inl hone
            · exact Or.inr (Or.inl (hneeded.cons _))
            · exact absurd hzero hpos.ne'
      · refine ⟨sample, [⟨sample, testSample, ⟨trimStep⟩⟩], fun fuel hfuel => ?_,
          Trimmed.nil.cons htrims, fun hall => absurd (hall _ (List.mem_singleton_self _)) hok⟩
        obtain ⟨fuel, rfl⟩ := hround fuel hfuel
        rw [Minimizer.minimizeLoop]
        simp only [simpleTrimmer, hsome]
        simp [hok]

/-- **Trimming ends and keeps what the sample is kept for**, for every target that is a
function of the bytes.  The result is a prefix of the sample and the sample itself or one of
the tests that kept the coverage, and unless a test run ended badly the last byte of what is
left is needed: without it the coverage is gone.  -/
theorem minimizeSample_simpleTrimmer (isReturnValueInteresting : UInt64 → Bool)
    (stableCoverage : Coverage) (target : Bytes → Outcome) (sample : Sample) :
    ∃ result tests, (∀ fuel, sample.size + 16 < fuel → simpleTrimmer.minimizeSample
        isReturnValueInteresting stableCoverage target fuel sample = some (result, tests)) ∧
      Trimmed isReturnValueInteresting stableCoverage target sample result tests ∧
      ((∀ test ∈ tests, (target test.testSample.bytes).result = .ok) → result.size ≤ 1 ∨
        LastByteNeeded isReturnValueInteresting stableCoverage target result tests) := by
  obtain ⟨result, tests, hloop, htrimmed, hlast⟩ := minimizeLoop_spec isReturnValueInteresting
    stableCoverage target (sample.size + 16) sample ⟨16⟩ le_rfl
  refine ⟨result, tests, hloop, htrimmed, fun hall => ?_⟩
  rcases hlast hall with hone | hneeded | ⟨_, hzero⟩
  · exact Or.inl hone
  · exact Or.inr hneeded
  · cases hzero

end

end Fuzzer
end Jackalope
