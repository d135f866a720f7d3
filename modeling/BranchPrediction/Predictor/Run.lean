import BranchPrediction.Predictor.Basic

/-!
# Runs

Sequences of calls to a predictor, the state that they lead to, and the predictions on the way.
-/

namespace BranchPrediction

/-- A call that changes a predictor. -/
inductive Call where
  | predict (pc : UInt64)
  | resolve (pc target : UInt64) (outcome : Outcome) (kind : Kind)
  | advance (pc : UInt64) (outcome : Outcome)
  | clearUseful
  deriving DecidableEq, Repr

namespace Predictor

def step (p : Predictor) : Call → Predictor
  | .predict pc => p.predict pc
  | .resolve pc target outcome kind => p.resolve pc target outcome kind
  | .advance pc outcome => p.advance pc outcome
  | .clearUseful => p.clearUseful

@[simp] theorem step_predict (p : Predictor) (pc : UInt64) :
    p.step (.predict pc) = p.predict pc := rfl

@[simp] theorem step_resolve (p : Predictor) (pc target : UInt64) (o : Outcome) (kind : Kind) :
    p.step (.resolve pc target o kind) = p.resolve pc target o kind := rfl

@[simp] theorem step_advance (p : Predictor) (pc : UInt64) (o : Outcome) :
    p.step (.advance pc o) = p.advance pc o := rfl

@[simp] theorem step_clearUseful (p : Predictor) : p.step .clearUseful = p.clearUseful := rfl

/-- The state after a sequence of calls. -/
def run (p : Predictor) (calls : List Call) : Predictor :=
  calls.foldl step p

@[simp] theorem run_nil (p : Predictor) : p.run [] = p := rfl

@[simp] theorem run_cons (p : Predictor) (c : Call) (cs : List Call) :
    p.run (c :: cs) = (p.step c).run cs := rfl

theorem run_append (p : Predictor) (cs ds : List Call) :
    p.run (cs ++ ds) = (p.run cs).run ds := by
  simp [run, List.foldl_append]

theorem run_concat (p : Predictor) (cs : List Call) (c : Call) :
    p.run (cs ++ [c]) = (p.run cs).step c :=
  run_append p cs [c]

/-- The prediction that a call makes, if the calls after it satisfy `P`. -/
def predicted (P : List Call → Bool) (p : Predictor) (after : List Call) : Call → List Context
  | .predict pc => if P after then [p.lookup pc] else []
  | _ => []

/-- The predictions that calls make, of those that are followed by calls that satisfy `P`. -/
def predictions (P : List Call → Bool) (p : Predictor) : List Call → List Context
  | [] => []
  | call :: after => p.predicted P after call ++ (p.step call).predictions P after

/-- All predictions that calls make. -/
def allPredictions (p : Predictor) (calls : List Call) : List Context :=
  p.predictions (fun _ => true) calls

theorem allPredictions_cons (p : Predictor) (c : Call) (cs : List Call) :
    p.allPredictions (c :: cs)
      = p.predicted (fun _ => true) cs c ++ (p.step c).allPredictions cs := rfl

theorem allPredictions_append (p : Predictor) (cs ds : List Call) :
    p.allPredictions (cs ++ ds) = p.allPredictions cs ++ (p.run cs).allPredictions ds := by
  induction cs generalizing p with
  | nil => rfl
  | cons c cs ih =>
    rw [List.cons_append, allPredictions_cons, allPredictions_cons, ih, List.append_assoc]
    cases c <;> rfl

end Predictor

end BranchPrediction
