/-
# What mutators keep

A mutator keeps something for each sample, its `MutatorSampleContext`, which is a tree
of the same shape as the mutator: `MutatorSequence` keeps the position of the child it
is at, the deterministic mutators keep the regions they go through, the others nothing.
`RepeatMutator` also keeps statistics, one for all mutators of this class.

Both are saved and loaded by recursion over the mutator, which is not in the file; so
a file is read back only along the mutator it was written along
(`decodes_loadContext`, `decodes_loadGlobalState`).
-/

import Jackalope.Foundation.TreeFile
import Jackalope.Mutators.Kinds
import Jackalope.StateFile

namespace Jackalope
namespace Mutators

open Foundation Foundation.Consumer

/-! ### Contexts -/

/-- `BaseDeterministicContext::MutateRegion`. -/
structure MutateRegion where
  regionStart : ℕ
  regionEnd : ℕ
  cur : ℕ
  curProgress : ℕ
  deriving DecidableEq

/-- What one mutator keeps for a sample. -/
inductive ContextData
  /-- `MutatorSampleContext` itself; that of a `GrammarMutator` is made anew from the
  sample whenever it is needed. -/
  | plain
  /-- `MutatorSequenceContext`. -/
  | sequence (currentMutatorIndex : ℕ)
  /-- `BaseDeterministicContext`. -/
  | deterministic (regions : List MutateRegion) (curRegion : ℕ)
  deriving DecidableEq

/-- A context with its `child_contexts`. -/
abbrev MutatorSampleContext := Foundation.Tree ContextData

/-- The context of a new sample. -/
def Kind.createContext : Kind → ContextData
  | .mutatorSequence _ _ => .sequence 0
  | .baseDeterministicMutator => .deterministic [] 0
  | _ => .plain

/-- `CreateSampleContext`. -/
def createSampleContext : Mutator → MutatorSampleContext :=
  Tree.fold fun kind children => .node kind.createContext children

/-- The numbers of a region fit their types. -/
structure MutateRegion.Fits (r : MutateRegion) : Prop where
  regionStart : r.regionStart < 2 ^ 64
  regionEnd : r.regionEnd < 2 ^ 64
  cur : r.cur < 2 ^ 64
  curProgress : r.curProgress < 2 ^ 64

/-- The context has the class that the mutator creates, and its numbers fit. -/
def Kind.Keeps : Kind → ContextData → Prop
  | .mutatorSequence _ _, data => ∃ i < 2 ^ 64, data = .sequence i
  | .baseDeterministicMutator, data => ∃ regions curRegion, data = .deterministic regions curRegion ∧
      regions.length < 2 ^ 64 ∧ curRegion < 2 ^ 64 ∧ ∀ r ∈ regions, r.Fits
  | _, data => data = .plain

/-- A context of this mutator. -/
abbrev ContextOf (mutator : Mutator) (context : MutatorSampleContext) : Prop :=
  Tree.Matches Kind.Keeps mutator context

/-- **A new context has the shape of the mutator**: a context for each node, and in it what
its kind keeps.  -/
theorem contextOf_createSampleContext (mutator : Mutator) :
    ContextOf mutator (createSampleContext mutator) := by
  refine Tree.matches_fold (fun kind => ?_) mutator
  cases kind with
  | mutatorSequence => exact ⟨0, by decide, rfl⟩
  | baseDeterministicMutator =>
      exact ⟨[], 0, rfl, by decide, by decide, fun r hr => absurd hr List.not_mem_nil⟩
  | _ => rfl

/-! ### `SaveContext` and `LoadContext` -/

def MutateRegion.toBytes (r : MutateRegion) : Bytes :=
  fwrite 8 r.regionStart ++ (fwrite 8 r.regionEnd ++ (fwrite 8 r.cur ++ fwrite 8 r.curProgress))

def readRegion : FileReader MutateRegion := do
  let regionStart ← fread 8
  let regionEnd ← fread 8
  let cur ← fread 8
  let curProgress ← fread 8
  pure ⟨regionStart, regionEnd, cur, curProgress⟩

/-- A region is four numbers of 64 bits.  -/
theorem decodes_readRegion {r : MutateRegion} (h : r.Fits) : Decodes readRegion r.toBytes r :=
  (decodes_fread h.regionStart).bind ((decodes_fread h.regionEnd).bind
    ((decodes_fread h.cur).bind ((decodes_fread h.curProgress).bind_pure _)))

/-- What a mutator writes of its own context. -/
def saveData : Kind → ContextData → Bytes
  | .mutatorSequence _ _, .sequence i => fwrite 8 i
  | .baseDeterministicMutator, .deterministic regions curRegion =>
      fwrite 8 regions.length ++ (fwrite 8 curRegion ++ regions.flatMap MutateRegion.toBytes)
  | _, _ => []

/-- What it reads into a context. -/
def loadData : Kind → ContextData → FileReader ContextData
  | .mutatorSequence _ _, _ => do
      let i ← fread 8
      pure (.sequence i)
  | .baseDeterministicMutator, _ => do
      let numRegions ← fread 8
      let curRegion ← fread 8
      let regions ← times readRegion numRegions
      pure (.deterministic regions curRegion)
  | _, data => pure data

/-- `SaveContext`. -/
def saveContext : Mutator → MutatorSampleContext → Bytes := Tree.write saveData

/-- `LoadContext`, into a context that is there. -/
def loadContext : Mutator → MutatorSampleContext → FileReader MutatorSampleContext :=
  Tree.read loadData

/-- What a kind keeps is read back over whatever was there before: every field that is
written is read and assigned, and the kinds that keep nothing read nothing.  -/
theorem decodes_loadData {kind : Kind} {data data' : ContextData} (h : kind.Keeps data)
    (h' : kind.Keeps data') : Decodes (loadData kind data') (saveData kind data) data := by
  cases kind with
  | mutatorSequence =>
      obtain ⟨i, hi, rfl⟩ := h
      exact (decodes_fread hi).bind_pure _
  | baseDeterministicMutator =>
      obtain ⟨regions, curRegion, rfl, hlength, hcur, hregions⟩ := h
      have htimes := Decodes.times (f := id) regions fun r hr => decodes_readRegion (hregions r hr)
      rw [List.map_id] at htimes
      exact (decodes_fread hlength).bind ((decodes_fread hcur).bind (htimes.bind_pure _))
  | _ =>
      obtain rfl : data = .plain := h
      obtain rfl : data' = .plain := h'
      exact Decodes.pure _

/-- **The context of any mutator is read back**, into any context of that mutator. -/
theorem decodes_loadContext {mutator : Mutator} {context context' : MutatorSampleContext}
    (h : ContextOf mutator context) (h' : ContextOf mutator context') :
    Decodes (loadContext mutator context') (saveContext mutator context) context := by
  refine Tree.decodes_read (fun kind data data' hdata hdata' => ?_) h h'
  exact decodes_loadData hdata hdata'

/-! ### `SaveGlobalState` and `LoadGlobalState` -/

/-- `REPEAT_STATS`. -/
def repeatStats : ℕ := 11

/-- The static fields of `RepeatMutator`; the last one is the bits of a `float`. -/
structure RepeatStats where
  stats : List.Vector UInt64 repeatStats
  nstats : UInt64
  nextStat : UInt64
  medianNumRepeats : UInt64
  adaptedRepeatP : UInt32
  deriving DecidableEq

def RepeatStats.toBytes (s : RepeatStats) : Bytes :=
  s.stats.toList.flatMap fwrite64 ++ (fwrite64 s.nstats ++ (fwrite64 s.nextStat ++
    (fwrite64 s.medianNumRepeats ++ fwrite32 s.adaptedRepeatP)))

def readStats : FileReader RepeatStats := do
  let stats ← vector fread64 repeatStats
  let nstats ← fread64
  let nextStat ← fread64
  let medianNumRepeats ← fread64
  let adaptedRepeatP ← fread32
  pure ⟨stats, nstats, nextStat, medianNumRepeats, adaptedRepeatP⟩

/-- The static fields of `RepeatMutator` are read back bit by bit, the `float` among them.
-/
theorem decodes_readStats (s : RepeatStats) : Decodes readStats s.toBytes s :=
  (Decodes.vector decodes_fread64 s.stats).bind ((decodes_fread64 _).bind ((decodes_fread64 _).bind
    ((decodes_fread64 _).bind ((decodes_fread32 _).bind_pure _))))

/-- `SaveGlobalState`. -/
def saveGlobalState (s : RepeatStats) : Mutator → Bytes :=
  Tree.writeShared (fun kind s => if kind = .repeatMutator then s.toBytes else []) s

/-- `LoadGlobalState`. -/
def loadGlobalState : Mutator → RepeatStats → FileReader RepeatStats :=
  Tree.visit fun kind s => if kind = .repeatMutator then readStats else pure s

/-- **The statistics are read back** if any part of the mutator is a `RepeatMutator`. -/
theorem decodes_loadGlobalState (mutator : Mutator) (s s' : RepeatStats) :
    Decodes (loadGlobalState mutator s') (saveGlobalState s mutator)
      (if mutator.any (· = .repeatMutator) then s else s') := by
  refine Tree.decodes_visit (fun kind s' => ?_) mutator s'
  by_cases hkind : kind = .repeatMutator
  · simp only [hkind, if_true, decide_true]
    exact decodes_readStats s
  · simp only [hkind, if_false, decide_false]
    exact Decodes.pure s'

end Mutators
end Jackalope
