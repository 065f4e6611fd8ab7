/-
# Minimizers

`minimizer.h` declares what `Fuzzer::MinimizeSample` asks of a minimizer: a
context, a step that proposes a smaller test sample or says that it is done, and
two ways to be told how the test went.  `simpleTrimmer` is the one that
`Fuzzer::CreateMinimizer` returns by default (`minimizer.cpp`).
-/

import Jackalope.Sample

namespace Jackalope
namespace Fuzzer

/-- `Minimizer` of `minimizer.h`, over the contexts of its kind.  `minimizeStep`
returns the test sample and the context, or none for 0. -/
structure Minimizer (μ : Type) where
  createContext : Sample → μ
  minimizeStep : Sample → μ → Option (Sample × μ)
  reportSuccess : Sample → μ → μ
  reportFail : Sample → μ → μ

/-- `SimpleTrimmerContext`. -/
structure SimpleTrimmerContext where
  trimStep : ℕ

namespace SimpleTrimmer

/-- `while (trim_step >= sample->size) trim_step /= 2`, for a size that is
positive; `trim_step` rounds are enough. -/
def shrinkStep (size : ℕ) : ℕ → ℕ → ℕ
  | 0, trimStep => trimStep
  | fuel + 1, trimStep => if trimStep ≥ size then shrinkStep size fuel (trimStep / 2) else trimStep

/-- `SimpleTrimmer::MinimizeStep`. -/
def minimizeStep (sample : Sample) (context : SimpleTrimmerContext) :
    Option (Sample × SimpleTrimmerContext) :=
  if sample.size ≤ 1 then none
  else
    let trimStep := shrinkStep sample.size context.trimStep context.trimStep
    if trimStep = 0 then none
    else some (sample.trim (sample.size - trimStep), ⟨trimStep⟩)

/-- `SimpleTrimmer::ReportFail`. -/
def reportFail (_sample : Sample) (context : SimpleTrimmerContext) : SimpleTrimmerContext :=
  ⟨context.trimStep / 2⟩

/-- The step that is left is smaller than the sample: it is halved until it is, for a step
as long as the sample would leave nothing.  -/
theorem shrinkStep_lt {size : ℕ} (h : 0 < size) {fuel trimStep : ℕ} (hf : trimStep ≤ fuel) :
    shrinkStep size fuel trimStep < size := by
  induction fuel generalizing trimStep with
  | zero =>
      rw [shrinkStep]
      omega
  | succ fuel ih =>
      rw [shrinkStep]
      split
      · exact ih (by omega)
      · omega

/-- A test sample is smaller than the sample it is made from, by the step that was taken off
its end.  -/
theorem size_minimizeStep {sample test : Sample} {context context' : SimpleTrimmerContext}
    (h : minimizeStep sample context = some (test, context')) : test.size < sample.size := by
  unfold minimizeStep at h
  split at h
  · cases h
  · rename_i hsize
    dsimp only at h
    split at h
    · cases h
    · rename_i hstep
      cases h
      rw [Sample.size_trim]
      omega

end SimpleTrimmer

/-- `SimpleTrimmer`. -/
def simpleTrimmer : Minimizer SimpleTrimmerContext where
  createContext _ := ⟨16⟩
  minimizeStep := SimpleTrimmer.minimizeStep
  reportSuccess _ context := context
  reportFail := SimpleTrimmer.reportFail

end Fuzzer
end Jackalope
