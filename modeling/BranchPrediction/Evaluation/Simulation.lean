import BranchPrediction.Evaluation.Accuracy
import BranchPrediction.Predictor.Basic

/-!
# Simulation

A predictor is driven through the records of a trace. Records that do not decode to a conditional
branch are passed over.
-/

namespace BranchPrediction

/-- A predictor and its accuracy so far. -/
structure Simulation where
  predictor : Predictor
  accuracy : Accuracy := {}
  deriving DecidableEq, Repr

namespace Simulation

/-- Predicts a branch, compares, and resolves it. -/
def observe (s : Simulation) (r : Record) (kind : Kind) : Simulation where
  predictor := (s.predictor.predict r.pc).resolve r.pc r.target r.outcome kind
  accuracy := s.accuracy.update r (s.predictor.lookup r.pc).outcome

def step (s : Simulation) (r : Record) : Simulation :=
  match r.kind? with
  | some kind => if kind.isConditional then s.observe r kind else s
  | none => s

/-- Goes through records, the first `limit` of them if there is a limit. -/
def run (s : Simulation) (limit : Option Nat) (records : List Record) : Simulation :=
  match limit with
  | some n => (records.take n).foldl step s
  | none => records.foldl step s

end Simulation

end BranchPrediction
