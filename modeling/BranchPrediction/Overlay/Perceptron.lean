import BranchPrediction.Outcome
import BranchPrediction.Weight

/-!
# Perceptrons

A perceptron weighs the bits of a history: a set bit contributes its weight, a clear bit the
negated weight, and the bias is added. A positive sum or zero is a vote for taken. Weights without
a bit take no part, and neither do bits without a weight.
-/

namespace BranchPrediction

/-- A bias and a list of weights. -/
structure Perceptron where
  bias : Int
  weights : List Int
  deriving DecidableEq, Repr

namespace Perceptron

/-- A perceptron of `count` weights, all zero. -/
def zero (count : Nat) : Perceptron :=
  ⟨0, List.replicate count 0⟩

/-- The contribution of a bit. -/
def term (bit : Bool) (weight : Int) : Int :=
  if bit then weight else -weight

def output (p : Perceptron) (input : List Bool) : Int :=
  (List.zipWith term input p.weights).sum + p.bias

/-- Moves each weight that is paired with a bit: up if the bit agrees with the outcome, down if
not. -/
def trainWeights (bits : Nat) (outcome : Outcome) : List Bool → List Int → List Int
  | b :: input, w :: ws =>
    Weight.add bits w (if b = outcome.toBool then 1 else -1) :: trainWeights bits outcome input ws
  | _, ws => ws

/-- Moves the bias and the weights toward an outcome, within weights of `bits` bits. -/
def train (p : Perceptron) (input : List Bool) (outcome : Outcome) (bits : Nat) : Perceptron :=
  ⟨Weight.add bits p.bias outcome.sign, trainWeights bits outcome input p.weights⟩

/-! ## Checked operations -/

/-- Fails if there cannot be so many weights. -/
def zero? (count : Nat) : Option Perceptron :=
  if fitsTable count 1 then some (zero count) else none

/-- Adds from the left to the right, and fails if a sum on the way does not fit. -/
def output? (p : Perceptron) (input : List Bool) : Option Int := do
  let dot ← (List.zipWith term input p.weights).foldlM addInt32? 0
  addInt32? dot p.bias

/-- Fails if a weight that is paired with a bit cannot be moved. -/
def trainWeights? (bits : Nat) (outcome : Outcome) : List Bool → List Int → Option (List Int)
  | b :: input, w :: ws => do
    let w ← Weight.add? bits w (if b = outcome.toBool then 1 else -1)
    let ws ← trainWeights? bits outcome input ws
    some (w :: ws)
  | _, ws => some ws

/-- Fails if the bias or a weight that is paired with a bit cannot be moved. -/
def train? (p : Perceptron) (input : List Bool) (outcome : Outcome) (bits : Nat) :
    Option Perceptron := do
  let bias ← Weight.add? bits p.bias outcome.sign
  let weights ← trainWeights? bits outcome input p.weights
  some ⟨bias, weights⟩

@[simp] theorem length_trainWeights (bits : Nat) (o : Outcome) (input : List Bool)
    (ws : List Int) : (trainWeights bits o input ws).length = ws.length := by
  induction ws generalizing input with
  | nil => cases input <;> rfl
  | cons w ws ih => cases input <;> simp [trainWeights, ih]

/-- Weights without a bit are left alone. -/
theorem drop_trainWeights (bits : Nat) (o : Outcome) (input : List Bool) (ws : List Int) :
    (trainWeights bits o input ws).drop input.length = ws.drop input.length := by
  induction ws generalizing input with
  | nil => cases input <;> rfl
  | cons w ws ih =>
    cases input with
    | nil => rfl
    | cons b input => exact ih input

end Perceptron

end BranchPrediction
