import BranchPrediction.Overlay.Basic
import BranchPrediction.Table.Tagged

/-!
# Prediction contexts

What a predictor remembers of a prediction until the branch is resolved: where the branch was
looked up, which tables predicted, and what they said.
-/

namespace BranchPrediction

/-- The table that a prediction comes from; the tagged tables are numbered from the shortest
history to the longest. -/
inductive Provider where
  | base
  | tagged (i : Nat)
  deriving DecidableEq, Repr

namespace Provider

/-- The number of the first table with a longer history. -/
def next : Provider → Nat
  | base => 0
  | tagged i => i + 1

end Provider

/-- Where a branch is looked up in a tagged table, and the tag that it has there. -/
structure Slot where
  index : Nat
  tag : Nat
  deriving DecidableEq, Repr

/-- A prediction that waits for the branch to be resolved. -/
structure Context where
  pc : UInt64
  /-- one slot for each tagged table -/
  slots : List Slot
  baseIndex : Nat
  provider : Provider
  providerOutcome : Outcome
  alternate : Provider
  alternateOutcome : Outcome
  vote : Option Vote
  /-- the direction that was predicted in the end -/
  outcome : Outcome
  deriving DecidableEq, Repr

namespace Context

/-- Whether the overlay had the last word, against the provider. -/
def isOverride (c : Context) : Bool :=
  c.vote.isSome && c.outcome != c.providerOutcome

end Context

end BranchPrediction
