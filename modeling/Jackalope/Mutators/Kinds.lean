/-
# Mutators

`Mutator` (`mutator.h`) has a vector `child_mutators`, so a mutator is a tree; the
class of each is the label of its node, with the parameters of its constructor.  The
mutators without children that keep nothing between calls are all `leaf` here; which
bytes they change is not needed.  Nor are the probabilities of `PSelectMutator` and
`RepeatMutator`: a draw may decide anything.
-/

import Jackalope.Foundation.Tree

namespace Jackalope
namespace Mutators

open Foundation

/-- The classes of mutators. -/
inductive Kind
  /-- `ByteFlipMutator`, `ArithmeticMutator` and the others of their kind. -/
  | leaf
  /-- `DeterministicByteFlipMutator` and `DeterministicInterestingValueMutator`. -/
  | baseDeterministicMutator
  | grammarMutator
  | nRoundMutator (numRounds : ℕ)
  | mutatorSequence (restartEachRound restartOnHotOffset : Bool)
  | selectMutator
  | pSelectMutator
  | repeatMutator
  | dtermininsticNondeterministicMutator (numRoundsDeterministic numRoundsNondeterministic : ℕ)
  | rangeMutator
  deriving DecidableEq

/-- A mutator with its `child_mutators`. -/
abbrev Mutator := Foundation.Tree Kind

/-- How many children a mutator can have; those that choose one have any at all. -/
def Kind.arity : Kind → ℕ → Bool
  | .leaf, n | .baseDeterministicMutator, n | .grammarMutator, n => n == 0
  | .nRoundMutator _, n | .repeatMutator, n | .rangeMutator, n => n == 1
  | .dtermininsticNondeterministicMutator _ _, n => n == 2
  | .mutatorSequence _ _, n | .selectMutator, n | .pSelectMutator, n => 0 < n

end Mutators
end Jackalope
