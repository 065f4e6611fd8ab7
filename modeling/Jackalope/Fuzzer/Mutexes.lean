/-
# The mutexes of the fuzzer

What each function that the fuzzing threads run does to the mutexes, along every
path through it: what decides a branch is left open, and so is how often a loop runs.
The functions of mutators follow the tree of the mutator, whatever it is.

At most four mutexes are held at once, by `RestoreState` within
`SynchronizeAndGetJob` within the functions of mutators.  They are always taken in the
order of `Mutex.rank`, and that is enough (`no_deadlock`).
-/

import Jackalope.Foundation.Locks
import Jackalope.Mutators.Kinds

namespace Jackalope
namespace Fuzzer

open Foundation Foundation.Locks Mutators

/-- The mutexes.  Each `BaseDeterministicContext` has one of its own, and so has each
`GrammarMutator`. -/
inductive Mutex
  | queue
  | output
  | coverage
  | server
  | crash
  | sampleTrie
  | stats
  | context (c : ℕ)
  | interestingTrees (g : ℕ)
  deriving DecidableEq

/-- The order in which they are taken. -/
def Mutex.rank : Mutex → ℕ
  | .queue => 0
  | .output => 1
  | .server => 2
  | .coverage => 3
  | .crash | .sampleTrie | .stats | .context _ | .interestingTrees _ => 4

/-- A function, as far as mutexes are concerned. -/
abbrev Code := Prog Mutex

/-- A section in which nothing else is locked. -/
def guarded (m : Mutex) : Code := .locked m .skip

/-- `m.Unlock(); return`. -/
def leave (m : Mutex) : Code := .block [.unlock m, .ret]

namespace Mutator

/-- `CreateSampleContext`. -/
def createSampleContext : Mutator → Code :=
  Tree.fold fun kind children => .call <|
    match kind with
    | .grammarMutator => .choose fun g => guarded (.interestingTrees g)
    | .leaf | .baseDeterministicMutator => .skip
    | _ => .block children

/-- `SaveContext`, and `LoadContext` locks alike. -/
def saveContext : Mutator → Code :=
  Tree.fold fun kind children => .call <|
    match kind with
    | .baseDeterministicMutator => .choose fun c => guarded (.context c)
    | .leaf | .grammarMutator => .skip
    | _ => .block children

/-- `SaveGlobalState`, and `LoadGlobalState` locks alike. -/
def saveGlobalState : Mutator → Code :=
  Tree.fold fun kind children => .call <|
    match kind with
    | .repeatMutator => .block [guarded .stats, .block children]
    | .leaf | .baseDeterministicMutator | .grammarMutator => .skip
    | _ => .block children

/-- `BaseDeterministicContext::AddHotOffset`. -/
def addHotOffsetToContext (m : Mutex) : Code :=
  .block [.lock m,
    .loop (.block [.when (leave m), .when (.block [.when (leave m), leave m])]),
    .unlock m, .ret]

/-- `AddHotOffset`. -/
def addHotOffset : Mutator → Code :=
  Tree.fold fun kind children => .call <|
    match kind with
    | .baseDeterministicMutator => .choose fun c => .call (addHotOffsetToContext (.context c))
    | .leaf | .grammarMutator => .skip
    | _ => .block children

/-- `Splice` and `RepeatSplice` of `GrammarMutator`. -/
def splice (m : Mutex) : Code :=
  .block [.when .ret, .lock m, .when (leave m), .unlock m, .when .ret, .when .ret]

/-- `GrammarMutator::Mutate`. -/
def grammarMutate : Code :=
  .block [.when .ret,
    .loop (.cond (.choose fun g => .call (splice (.interestingTrees g))) .skip)]

/-- `Mutate`. -/
def mutate : Mutator → Code :=
  Tree.fold fun kind children => .call <|
    match kind with
    | .leaf | .baseDeterministicMutator => .skip
    | .grammarMutator => grammarMutate
    | .nRoundMutator _ => .block [.when .ret, .block children]
    | .mutatorSequence _ _ => .loop (.block [.oneOf children, .when .ret])
    | .selectMutator | .pSelectMutator => .oneOf children
    | .repeatMutator => .block [.oneOf children, .when .ret, .loop (.oneOf children)]
    | .dtermininsticNondeterministicMutator _ _ =>
        .block [.when (.block [.oneOf children, .when .ret]), .when (.oneOf children)]
    | .rangeMutator => .block [.when (.block [.oneOf children, .ret]), .oneOf children]

/-- `RepeatMutator::UpdateStats`. -/
def updateStats : Code := guarded .stats

/-- `NotifyResult`. -/
def notifyResult : Mutator → Code :=
  Tree.fold fun kind children => .call <|
    match kind with
    | .leaf | .baseDeterministicMutator | .grammarMutator => .skip
    | .nRoundMutator _ | .rangeMutator => .block children
    | .repeatMutator => .block [.when (.call updateStats), .block children]
    | .mutatorSequence _ _ | .selectMutator | .pSelectMutator
    | .dtermininsticNondeterministicMutator _ _ => .oneOf children

end Mutator

/-- `SampleTrie::AddSample`. -/
def addSample : Code :=
  .block [.when .ret, .lock .sampleTrie, .when (leave .sampleTrie),
    .loop (.block [.when (leave .sampleTrie),
      .cond (.cond .skip (leave .sampleTrie)) (.cond .skip (leave .sampleTrie))]),
    .unlock .sampleTrie]

/-- `Fuzzer::RunSampleAndGetCoverage`. -/
def runSampleAndGetCoverage : Code :=
  .block [
    .when (.block [guarded .crash,
      .when (.block [guarded .output, .when (guarded .server)])]),
    .when (guarded .output)]

/-- `Fuzzer::InterestingSample`. -/
def interestingSampleCode : Code := guarded .coverage

/-- `Fuzzer::MinimizeSample`. -/
def minimizeSample : Code := .block [.when .ret, .loop (.call runSampleAndGetCoverage)]

/-- `Fuzzer::SaveSample`. -/
def saveSampleCode (mutator : Mutator) : Code :=
  .block [
    .when (.call runSampleAndGetCoverage),
    guarded .output,
    Mutator.createSampleContext mutator,
    .when (.cond (.block [.call addSample, Mutator.addHotOffset mutator])
      (.when (Mutator.addHotOffset mutator))),
    guarded .queue]

/-- `Fuzzer::RunSample`. -/
def runSample (mutator : Mutator) : Code :=
  .block [
    .call runSampleAndGetCoverage,
    .when .ret,
    .loop (.block [.call runSampleAndGetCoverage, .when .ret]),
    .call interestingSampleCode,
    .when (.block [.when (.call minimizeSample), .when (guarded .server),
      .call (saveSampleCode mutator)]),
    .when (guarded .server)]

/-- `Fuzzer::SaveState`. -/
def saveStateCode (mutator : Mutator) : Code :=
  .block [
    .when .ret,
    .locked .output (.locked .coverage (.block [
      Mutator.saveGlobalState mutator,
      .loop (Mutator.saveContext mutator)]))]

/-- `Fuzzer::RestoreState`. -/
def restoreStateCode (mutator : Mutator) : Code :=
  .locked .output (.locked .coverage (.block [
    Mutator.saveGlobalState mutator,
    .loop (.block [
      Mutator.createSampleContext mutator,
      Mutator.saveContext mutator,
      .when (.call addSample)])]))

/-- `Fuzzer::SynchronizeAndGetJob`. -/
def synchronizeAndGetJobCode (mutator : Mutator) : Code :=
  .locked .queue (.block [
    .when (.call (restoreStateCode mutator)),
    .when (.call (saveStateCode mutator)),
    .when (guarded .coverage),
    .when (guarded .server),
    .when (.locked .server (guarded .coverage))])

/-- `Fuzzer::JobDone`. -/
def jobDoneCode : Code := guarded .queue

/-- `Fuzzer::FuzzJob`. -/
def fuzzJob (mutator : Mutator) : Code :=
  .loop (.block [
    Mutator.mutate mutator,
    .when (.block [
      .call (runSample mutator),
      Mutator.notifyResult mutator,
      .when (Mutator.addHotOffset mutator)])])

/-- `Fuzzer::ProcessSample`. -/
def processSample (mutator : Mutator) : Code :=
  .block [.call (runSample mutator), .when (.call (saveSampleCode mutator))]

/-- `Fuzzer::RunFuzzerThread`. -/
def runFuzzerThread (mutator : Mutator) : Code :=
  .loop (.block [
    .call (synchronizeAndGetJobCode mutator),
    .cond .skip (.cond (.call (processSample mutator)) (.call (fuzzJob mutator))),
    .call jobDoneCode])

/-- The loop at the end of `Fuzzer::Run`. -/
def statusLoop : Code := .loop (guarded .coverage)

/-! ### The order is kept

Below `n` stand the locks that the callers may hold: what the functions of mutators
lock is not below 4, what `RestoreState` and `SaveState` lock not below 1. -/

/-- A function as a piece of its callers. -/
abbrev Ordered (n : ℕ) (p : Code) : Prop := Straight Mutex.rank n p

/-- A section of the source, in which the mutex is locked in the beginning and unlocked in
the end.  -/
theorem ordered_locked (m : Mutex) {n : ℕ} {p : Code} (hp : Ordered (m.rank + 1) p)
    (hn : n ≤ m.rank) : Ordered n (.locked m p) := hp.locked hn

/-- A section in which nothing else is locked, wherever the callers hold mutexes below it
only.  -/
theorem ordered_guarded {n : ℕ} {m : Mutex} (hn : n ≤ m.rank) : Ordered n (guarded m) :=
  ordered_locked m straight_skip hn

namespace Mutator

/-- **A function of mutators** that calls itself for the children keeps the order if it does
so with children that keep it: the induction on the tree is done here once for all such
functions.  -/
theorem ordered_fold {f : Kind → List Code → Code}
    (hf : ∀ kind children, (∀ p ∈ children, Ordered 4 p) → Keeps Mutex.rank 4 (f kind children))
    (mutator : Mutator) : Ordered 4 (Tree.fold (fun kind children => .call (f kind children)) mutator) := by
  induction mutator using Tree.induction with
  | h kind ts ih =>
      rw [Tree.fold_node]
      refine Keeps.call (hf kind _ ?_)
      intro p hp
      obtain ⟨t, ht, rfl⟩ := List.mem_map.1 hp
      exact ih t ht

/-- `CreateSampleContext` of every tree of mutators: a grammar mutator locks the mutex of
its interesting trees, the others call it for their children.  -/
theorem ordered_createSampleContext (mutator : Mutator) : Ordered 4 (createSampleContext mutator) := by
  refine ordered_fold (fun kind children h => Straight.keeps ?_) mutator
  cases kind with
  | grammarMutator => exact Straight.choose fun g => ordered_guarded (Nat.le_refl 4)
  | leaf | baseDeterministicMutator => exact straight_skip
  | _ => exact Straight.block h

/-- `SaveContext` of every tree of mutators: a context of the deterministic mutators has a
mutex of its own.  -/
theorem ordered_saveContext (mutator : Mutator) : Ordered 4 (saveContext mutator) := by
  refine ordered_fold (fun kind children h => Straight.keeps ?_) mutator
  cases kind with
  | baseDeterministicMutator => exact Straight.choose fun c => ordered_guarded (Nat.le_refl 4)
  | leaf | grammarMutator => exact straight_skip
  | _ => exact Straight.block h

/-- `SaveGlobalState` of every tree of mutators: `RepeatMutator` locks its statistics, gives
the mutex back, and goes on with its child.  -/
theorem ordered_saveGlobalState (mutator : Mutator) : Ordered 4 (saveGlobalState mutator) := by
  refine ordered_fold (fun kind children h => Straight.keeps ?_) mutator
  cases kind with
  | repeatMutator =>
      have hstats : Ordered 4 (guarded .stats) := ordered_guarded (Nat.le_refl 4)
      exact hstats.seq ((Straight.block h).seq straight_skip)
  | leaf | baseDeterministicMutator | grammarMutator => exact straight_skip
  | _ => exact Straight.block h

/-- `AddHotOffset` of a context releases its mutex on each of its four ways out. -/
theorem keeps_addHotOffsetToContext {m : Mutex} {n : ℕ} (hn : n ≤ m.rank) :
    Keeps Mutex.rank n (addHotOffsetToContext m) := by
  refine Keeps.lock hn ?_
  have hround : Holding Mutex.rank n m
      (.block [.when (leave m), .when (.block [.when (leave m), leave m])]) := by
    have hregion : Holding Mutex.rank n m (.block [.when (leave m), leave m]) :=
      holding_leave.when.seq (holding_leave.seq holding_skip)
    exact holding_leave.when.seq (hregion.when.seq holding_skip)
  exact hround.loop.releases_seq (Releases.unlock (keeps_ret.seq straight_skip.keeps))

/-- `AddHotOffset` of every tree of mutators, which leads to the contexts of the
deterministic ones.  -/
theorem ordered_addHotOffset (mutator : Mutator) : Ordered 4 (addHotOffset mutator) := by
  refine ordered_fold (fun kind children h => Straight.keeps ?_) mutator
  cases kind with
  | baseDeterministicMutator =>
      exact Straight.choose fun c => (keeps_addHotOffsetToContext (Nat.le_refl 4)).call
  | leaf | grammarMutator => exact straight_skip
  | _ => exact Straight.block h

/-- `Splice` gives the mutex of the interesting trees back on both of its ways through the
section, also when there are no trees.  -/
theorem keeps_splice {m : Mutex} {n : ℕ} (hn : n ≤ m.rank) : Keeps Mutex.rank n (splice m) := by
  have hret : Keeps Mutex.rank n (.when .ret : Code) := keeps_ret.when
  refine hret.seq (Keeps.lock hn (holding_leave.when.releases_seq (Releases.unlock ?_)))
  exact hret.seq (hret.seq straight_skip.keeps)

/-- `Mutate` of every tree of mutators, whichever child each mutator selects and however
often: it locks nothing of rank below 4, each mutex it locks is above those that are held,
and all are given back when it returns.  -/
theorem ordered_mutate (mutator : Mutator) : Ordered 4 (mutate mutator) := by
  refine ordered_fold (fun kind children h => ?_) mutator
  have hret : Keeps Mutex.rank 4 (.when .ret : Code) := keeps_ret.when
  have hone : Keeps Mutex.rank 4 (.oneOf children) := (Straight.oneOf h).keeps
  have hskip : Keeps Mutex.rank 4 (.skip : Code) := straight_skip.keeps
  cases kind with
  | leaf | baseDeterministicMutator => exact hskip
  | grammarMutator =>
      have hsplice : Ordered 4 (.choose fun g => .call (splice (.interestingTrees g))) :=
        Straight.choose fun g => (keeps_splice (Nat.le_refl 4)).call
      exact hret.seq ((hsplice.cond straight_skip).loop.keeps.seq hskip)
  | nRoundMutator => exact hret.seq ((Straight.block h).keeps.seq hskip)
  | mutatorSequence => exact (hone.seq (hret.seq hskip)).loop
  | selectMutator | pSelectMutator => exact hone
  | repeatMutator => exact hone.seq (hret.seq (hone.loop.seq hskip))
  | dtermininsticNondeterministicMutator =>
      exact (hone.seq (hret.seq hskip)).when.seq (hone.when.seq hskip)
  | rangeMutator => exact (hone.seq (keeps_ret.seq hskip)).when.seq (hone.seq hskip)

/-- `NotifyResult` of every tree of mutators: `RepeatMutator` updates its statistics before
it tells its child.  -/
theorem ordered_notifyResult (mutator : Mutator) : Ordered 4 (notifyResult mutator) := by
  refine ordered_fold (fun kind children h => Straight.keeps ?_) mutator
  cases kind with
  | leaf | baseDeterministicMutator | grammarMutator => exact straight_skip
  | nRoundMutator | rangeMutator => exact Straight.block h
  | repeatMutator =>
      have hstats : Ordered 4 updateStats := ordered_guarded (Nat.le_refl 4)
      exact hstats.keeps.call.when.seq ((Straight.block h).seq straight_skip)
  | _ => exact Straight.oneOf h

end Mutator

/-- `AddSample` releases the mutex of the trie on each of its five ways out. -/
theorem keeps_addSample : Keeps Mutex.rank 4 addSample := by
  have hleave : Holding Mutex.rank 4 .sampleTrie (leave .sampleTrie) := holding_leave
  have hbranch : Holding Mutex.rank 4 .sampleTrie (.cond .skip (leave .sampleTrie)) :=
    holding_skip.cond hleave
  have hround : Holding Mutex.rank 4 .sampleTrie (.block [.when (leave .sampleTrie),
      .cond (.cond .skip (leave .sampleTrie)) (.cond .skip (leave .sampleTrie))]) :=
    hleave.when.seq ((hbranch.cond hbranch).seq holding_skip)
  refine keeps_ret.when.seq (Keeps.lock (Nat.le_refl 4) ?_)
  exact hleave.when.releases_seq (hround.loop.releases_seq (Releases.unlock straight_skip.keeps))

/-- `RunSampleAndGetCoverage` locks one mutex after the other: that of the crashes, then
that of the output, then that of the server.  It is called with nothing locked.  -/
theorem ordered_runSampleAndGetCoverage : Ordered 1 runSampleAndGetCoverage := by
  have hcrash : Ordered 1 (guarded .crash) := ordered_guarded (by decide)
  have houtput : Ordered 1 (guarded .output) := ordered_guarded (by decide)
  have hserver : Ordered 1 (guarded .server) := ordered_guarded (by decide)
  have hsave : Ordered 1 (.when (.block [guarded .output, .when (guarded .server)])) :=
    (houtput.seq (hserver.when.seq straight_skip)).when
  exact ((hcrash.seq (hsave.seq straight_skip)).when).seq (houtput.when.seq straight_skip)

/-- `MinimizeSample` runs samples, and holds nothing in between.  -/
theorem keeps_minimizeSample : Keeps Mutex.rank 1 minimizeSample :=
  keeps_ret.when.seq (ordered_runSampleAndGetCoverage.keeps.call.loop.keeps.seq straight_skip.keeps)

/-- `SaveSample` locks one mutex after the other: the output for the file, what the mutators
lock for the context, and the queue for the entry.  -/
theorem ordered_saveSampleCode (mutator : Mutator) : Ordered 0 (saveSampleCode mutator) := by
  have hrun : Ordered 0 (.when (.call runSampleAndGetCoverage)) :=
    (ordered_runSampleAndGetCoverage.keeps.call.when).mono (Nat.zero_le _)
  have houtput : Ordered 0 (guarded .output) := ordered_guarded (Nat.zero_le _)
  have hcreate := (Mutator.ordered_createSampleContext mutator).mono (Nat.zero_le 4)
  have hoffset := (Mutator.ordered_addHotOffset mutator).mono (Nat.zero_le 4)
  have htrie : Ordered 0 (.call addSample) := keeps_addSample.call.mono (Nat.zero_le _)
  have hqueue : Ordered 0 (guarded .queue) := ordered_guarded (Nat.zero_le _)
  have hhot := (Straight.cond (htrie.seq (hoffset.seq straight_skip)) hoffset.when).when
  exact hrun.seq (houtput.seq (hcreate.seq (hhot.seq (hqueue.seq straight_skip))))

/-- `RunSample` holds no mutex from one of its sections to the next, whether it returns
early or saves the sample.  -/
theorem keeps_runSample (mutator : Mutator) : Keeps Mutex.rank 0 (runSample mutator) := by
  have hrun : Ordered 0 (.call runSampleAndGetCoverage) :=
    ordered_runSampleAndGetCoverage.keeps.call.mono (Nat.zero_le _)
  have hret : Keeps Mutex.rank 0 (.when .ret : Code) := keeps_ret.when
  have hskip : Keeps Mutex.rank 0 (.skip : Code) := straight_skip.keeps
  have hserver : Ordered 0 (.when (guarded .server)) := (ordered_guarded (Nat.zero_le _)).when
  have hinteresting : Ordered 0 (.call interestingSampleCode) := by
    have hcoverage : Ordered 0 interestingSampleCode := ordered_guarded (Nat.zero_le _)
    exact hcoverage.keeps.call
  have hminimize : Ordered 0 (.when (.call minimizeSample)) :=
    keeps_minimizeSample.call.when.mono (Nat.zero_le _)
  have hsave : Ordered 0 (.call (saveSampleCode mutator)) :=
    (ordered_saveSampleCode mutator).keeps.call
  have hnew := (hminimize.seq (hserver.seq (hsave.seq straight_skip))).when
  have hretry : Keeps Mutex.rank 0 (.loop (.block [.call runSampleAndGetCoverage, .when .ret])) :=
    (hrun.keeps.seq (hret.seq hskip)).loop
  exact hrun.keeps.seq (hret.seq (hretry.seq (hinteresting.keeps.seq
    (hnew.keeps.seq (hserver.keeps.seq hskip)))))

/-- `SaveState` holds the output and the coverage while the mutators save what they know.
-/
theorem keeps_saveStateCode (mutator : Mutator) : Keeps Mutex.rank 1 (saveStateCode mutator) := by
  have hglobal := Mutator.ordered_saveGlobalState mutator
  have hcontext := Mutator.ordered_saveContext mutator
  have hbody := hglobal.seq (hcontext.loop.seq straight_skip)
  have hcoverage := ordered_locked .coverage hbody (show 2 ≤ 3 by decide)
  have houtput := ordered_locked .output hcoverage (Nat.le_refl 1)
  exact keeps_ret.when.seq (houtput.keeps.seq straight_skip.keeps)

/-- `RestoreState` holds the output and the coverage while the mutators load what they know
and the trie of samples is built.  -/
theorem ordered_restoreStateCode (mutator : Mutator) : Ordered 1 (restoreStateCode mutator) := by
  have hglobal := Mutator.ordered_saveGlobalState mutator
  have hcreate := Mutator.ordered_createSampleContext mutator
  have hcontext := Mutator.ordered_saveContext mutator
  have hentry := hcreate.seq (hcontext.seq (keeps_addSample.call.when.seq straight_skip))
  have hbody := hglobal.seq (hentry.loop.seq straight_skip)
  have hcoverage := ordered_locked .coverage hbody (show 2 ≤ 3 by decide)
  exact ordered_locked .output hcoverage (Nat.le_refl 1)

/-- While the queue is locked, `SynchronizeAndGetJob` saves and restores the state and
talks to the server. -/
theorem ordered_synchronizeAndGetJobCode (mutator : Mutator) :
    Ordered 0 (synchronizeAndGetJobCode mutator) := by
  have hrestore := (ordered_restoreStateCode mutator).keeps.call.when
  have hsave := (keeps_saveStateCode mutator).call.when
  have hcoverage : Ordered 1 (.when (guarded .coverage)) := (ordered_guarded (by decide)).when
  have hserver : Ordered 1 (.when (guarded .server)) := (ordered_guarded (by decide)).when
  have hinner : Ordered 3 (guarded .coverage) := ordered_guarded (by decide)
  have hsync : Ordered 1 (.when (.locked .server (guarded .coverage))) :=
    (ordered_locked .server hinner (show 1 ≤ 2 by decide)).when
  have hbody := hrestore.seq (hsave.seq (hcoverage.seq (hserver.seq (hsync.seq straight_skip))))
  exact ordered_locked .queue hbody (Nat.le_refl 0)

/-- `FuzzJob` mutates, runs, and notifies, and holds no mutex of its own.  -/
theorem ordered_fuzzJob (mutator : Mutator) : Ordered 0 (fuzzJob mutator) := by
  have hmutate := (Mutator.ordered_mutate mutator).mono (Nat.zero_le 4)
  have hrun := (keeps_runSample mutator).call
  have hnotify := (Mutator.ordered_notifyResult mutator).mono (Nat.zero_le 4)
  have hoffset := ((Mutator.ordered_addHotOffset mutator).mono (Nat.zero_le 4)).when
  have hresult := (hrun.seq (hnotify.seq (hoffset.seq straight_skip))).when
  exact (hmutate.seq (hresult.seq straight_skip)).loop

/-- `ProcessSample` runs its sample, and may save it once more.  -/
theorem ordered_processSample (mutator : Mutator) : Ordered 0 (processSample mutator) := by
  have hsave := (ordered_saveSampleCode mutator).keeps.call.when
  exact (keeps_runSample mutator).call.seq (hsave.seq straight_skip)

/-- **A fuzzing thread keeps the order**: its loop takes the locks of each function in turn,
and holds none when it begins again.  -/
theorem ordered_runFuzzerThread (mutator : Mutator) : Ordered 0 (runFuzzerThread mutator) := by
  have hget := (ordered_synchronizeAndGetJobCode mutator).keeps.call
  have hprocess := (ordered_processSample mutator).keeps.call
  have hfuzz := (ordered_fuzzJob mutator).keeps.call
  have hjob := straight_skip.cond (hprocess.cond hfuzz)
  have hdone : Ordered 0 (.call jobDoneCode) := by
    have hqueue : Ordered 0 jobDoneCode := ordered_guarded (Nat.zero_le _)
    exact hqueue.keeps.call
  exact (hget.seq (hjob.seq (hdone.seq straight_skip))).loop

/-- The main thread reads the coverage again and again.  -/
theorem ordered_statusLoop : Ordered 0 statusLoop := by
  have hcoverage : Ordered 0 (guarded .coverage) := ordered_guarded (Nat.zero_le _)
  exact hcoverage.loop

/-! ### The threads -/

section

variable {σ : Type} [DecidableEq σ]

/-- What each thread runs: the main thread the status loop, every other one
`RunFuzzerThread` with its own mutator. -/
def threadCode (mutators : σ → Mutator) : Option σ → Code
  | none => statusLoop
  | some t => runFuzzerThread (mutators t)

/-- Nobody holds anything yet. -/
def start (mutators : σ → Mutator) (t : Option σ) : Thread Mutex :=
  ⟨[], [.stmt (threadCode mutators t)]⟩

omit [DecidableEq σ] in
/-- **The threads begin in order**, as each of them runs one of the two functions above and
holds nothing.  -/
theorem disciplined_start (mutators : σ → Mutator) :
    Disciplined Mutex.rank (start mutators) := by
  intro t
  have hordered : Ordered 0 (threadCode mutators t) := by
    cases t with
    | none => exact ordered_statusLoop
    | some t => exact ordered_runFuzzerThread (mutators t)
  exact hordered _ _ [] (fun k hk => absurd hk List.not_mem_nil) trivial

/-- **No deadlock**, whatever the threads do and however they are interleaved: no thread
asks for a mutex that it holds, no threads wait for each other in a cycle, and every
function that returns has released what it locked. -/
theorem no_deadlock {mutators : σ → Mutator} {s : Option σ → Thread Mutex}
    {tr : List (Option σ × Label Mutex)} (hrun : Run Locks.Step (start mutators) tr s) :
    (∀ t m, Requests s t m → m ∉ (s t).held) ∧
      (∀ t, ¬ Relation.TransGen (WaitsFor s) t t) ∧
      ∀ t before s', Locks.Step s (t, .returned before) s' → (s t).held = before := by
  have hdisciplined := (disciplined_start mutators).run hrun
  refine ⟨fun t m hm hheld => ?_, hdisciplined.no_cycle, fun t before s' hstep => ?_⟩
  · exact Nat.lt_irrefl _ (hdisciplined.rank_lt hm hheld)
  · exact hdisciplined.returned hstep

/-- The status loop up to where it holds the coverage. -/
theorem run_statusLoop : ∃ th : Thread Mutex,
    Run ThreadStep ⟨[], [.stmt statusLoop]⟩ [.silent, .silent, .lock .coverage] th ∧
      th.held = [.coverage] :=
  ⟨_, Run.cons ThreadStep.loop (Run.cons ThreadStep.seq (Run.single ThreadStep.lock)), rfl⟩

/-- A fuzzing thread up to where `SynchronizeAndGetJob` asks for the queue. -/
theorem run_asksQueue (mutator : Mutator) : ∃ th : Thread Mutex,
    Run ThreadStep ⟨[], [.stmt (runFuzzerThread mutator)]⟩ [.silent, .silent, .silent, .silent] th ∧
      th.held = [] ∧ ∃ stack, th.stack = .stmt (.lock .queue) :: stack :=
  ⟨_, Run.cons ThreadStep.loop (Run.cons ThreadStep.seq (Run.cons ThreadStep.call
    (Run.single ThreadStep.seq))), rfl, _, rfl⟩

/-- A fuzzing thread that holds the queue goes on, when it is time to save and there is
nothing to restore, up to where `SaveState` has locked the output and asks for the
coverage. -/
theorem run_asksCoverage (mutator : Mutator) : ∃ (labels : List (Label Mutex)) (th : Thread Mutex),
    Run ThreadStep ⟨[], [.stmt (runFuzzerThread mutator)]⟩ labels th ∧
      (∀ m, .lock m ∈ labels → m = .queue ∨ m = .output) ∧ th.held = [.output, .queue] ∧
      ∃ stack, th.stack = .stmt (.lock .coverage) :: stack := by
  refine ⟨_, _, Run.cons ThreadStep.loop (Run.cons ThreadStep.seq (Run.cons ThreadStep.call
    (Run.cons ThreadStep.seq (Run.cons ThreadStep.lock (Run.cons ThreadStep.seq
    (Run.cons ThreadStep.seq (Run.cons (ThreadStep.choose 1) (Run.cons ThreadStep.skip
    (Run.cons ThreadStep.seq (Run.cons (ThreadStep.choose 0) (Run.cons ThreadStep.call
    (Run.cons ThreadStep.seq (Run.cons (ThreadStep.choose 1) (Run.cons ThreadStep.skip
    (Run.cons ThreadStep.seq (Run.cons ThreadStep.seq (Run.cons ThreadStep.lock
    (Run.cons ThreadStep.seq (Run.single ThreadStep.seq))))))))))))))))))), ?_, rfl, _, rfl⟩
  intro m hm
  simpa using hm

end

/-- **Nested locks, and two threads that wait.**  The main thread holds the coverage.  One
fuzzing thread is in `SaveState` within `SynchronizeAndGetJob`, where it holds the queue
and the output and waits for the main thread; the other one asks for the queue and waits
for the first one.  Nobody waits in a cycle. -/
theorem no_deadlock_saveState : ∃ (tr : List (Option Bool × Label Mutex))
    (s : Option Bool → Thread Mutex),
    Run Locks.Step (start fun _ => Foundation.Tree.node .leaf []) tr s ∧
      (s none).held = [.coverage] ∧ (s (some false)).held = [.output, .queue] ∧
      WaitsFor s (some false) none ∧ WaitsFor s (some true) (some false) ∧
      (∀ t m, Requests s t m → m ∉ (s t).held) ∧
      (∀ t, ¬ Relation.TransGen (WaitsFor s) t t) ∧
      ∀ t before s', Locks.Step s (t, .returned before) s' → (s t).held = before := by
  let mutators : Bool → Mutator := fun _ => Foundation.Tree.node .leaf []
  obtain ⟨status, hstatus, hcoverage⟩ := run_statusLoop
  obtain ⟨labels, saving, hsaving, hlocks, hnested, stack, hasks⟩ :=
    run_asksCoverage (Foundation.Tree.node .leaf [])
  obtain ⟨waiting, hwaiting, -, stack', hasks'⟩ := run_asksQueue (Foundation.Tree.node .leaf [])
  have hd := disciplined_start mutators
  obtain ⟨tr₁, h₁⟩ := hd.run_thread (t := none) hstatus fun m _ u _ => by
    cases u <;> exact List.not_mem_nil
  have hd₁ := hd.run h₁
  obtain ⟨tr₂, h₂⟩ := hd₁.run_thread (t := some false) hsaving fun m hm u hu => by
    match u, hu with
    | none, _ =>
        show m ∉ status.held
        rw [hcoverage]
        rcases hlocks m hm with rfl | rfl <;> decide
    | some true, _ => exact List.not_mem_nil
    | some false, hu => exact absurd rfl hu
  have hd₂ := hd₁.run h₂
  obtain ⟨tr₃, h₃⟩ := hd₂.run_thread (t := some true) hwaiting fun m hm u _ => by simp at hm
  have hrun := (h₁.trans h₂).trans h₃
  have hqueue : Mutex.queue ∈ saving.held := by rw [hnested]; decide
  have hcov : Mutex.coverage ∈ status.held := by rw [hcoverage]; decide
  exact ⟨_, _, hrun, hcoverage, hnested, ⟨.coverage, ⟨stack, hasks⟩, hcov⟩,
    ⟨.queue, ⟨stack', hasks'⟩, hqueue⟩, no_deadlock hrun⟩

end Fuzzer
end Jackalope
