import BranchPrediction.Config.Capacity
import BranchPrediction.Config.Validation
import BranchPrediction.Overlay.Perceptron

/-!
# The perceptron overlay

A table of perceptrons and a table of local history registers, each indexed by a hash of the
address. The perceptron of a branch votes on the newest bits of the local history of the branch.
-/

namespace BranchPrediction

/-- Perceptrons, and local histories with the newest bit at index 0. -/
structure Overlay where
  config : OverlayConfig
  perceptrons : Array Perceptron
  histories : Array (BitVec 32)
  deriving DecidableEq, Repr

/-- The vote on a branch, with the local history that it was made from. -/
structure Vote where
  perceptronIndex : Nat
  historyIndex : Nat
  history : BitVec 32
  output : Int
  deriving DecidableEq, Repr

namespace Vote

def outcome (v : Vote) : Outcome :=
  .ofBool (0 ≤ v.output)

/-- Whether the magnitude of the output is above the threshold. -/
def isConfident (v : Vote) (threshold : Int) : Bool :=
  threshold < v.output.natAbs

/-- Fails if the magnitude of the output does not fit. -/
def isConfident? (v : Vote) (threshold : Int) : Option Bool :=
  if fitsInt32 v.output.natAbs then some (v.isConfident threshold) else none

end Vote

namespace Overlay

def ofConfig (c : OverlayConfig) : Overlay where
  config := c
  perceptrons := Array.replicate c.perceptrons (.zero c.weights)
  histories := Array.replicate c.localRegisters (BitVec.zero 32)

/-- Fails if there cannot be tables as large as the configuration says. -/
def ofConfig? (c : OverlayConfig) : Option Overlay :=
  if c.fits then some (ofConfig c) else none

/-- An overlay with a valid configuration. -/
def build (c : OverlayConfig) : Except ConfigError Overlay := do
  c.validate
  .ok (ofConfig c)

def perceptronIndex (o : Overlay) (pc : UInt64) : Nat :=
  (pc.toNat ^^^ (pc.toNat >>> 7)) % o.config.perceptrons

def historyIndex (o : Overlay) (pc : UInt64) : Nat :=
  (pc.toNat ^^^ (pc.toNat >>> 11)) % o.config.localRegisters

def perceptron (o : Overlay) (i : Nat) : Perceptron :=
  o.perceptrons[i]?.getD (.zero o.config.weights)

def history (o : Overlay) (i : Nat) : BitVec 32 :=
  o.histories[i]?.getD (BitVec.zero 32)

/-- The bits of a local history that have a weight, newest first. -/
def inputOf (o : Overlay) (h : BitVec 32) : List Bool :=
  (List.range o.config.inputs).map h.getLsbD

def vote (o : Overlay) (pc : UInt64) : Vote :=
  let h := o.history (o.historyIndex pc)
  { perceptronIndex := o.perceptronIndex pc
    historyIndex := o.historyIndex pc
    history := h
    output := (o.perceptron (o.perceptronIndex pc)).output (o.inputOf h) }

/-- Trains the perceptron that voted, and shifts the outcome into the local history. -/
def train (o : Overlay) (v : Vote) (outcome : Outcome) : Overlay :=
  { o with
    perceptrons := o.perceptrons.modify v.perceptronIndex fun p =>
      p.train (o.inputOf v.history) outcome o.config.weightBits
    histories := o.histories.modify v.historyIndex fun h => h.shiftConcat outcome.toBool }

/-! ## Checked operations -/

/-- Fails if the configuration is valid but there cannot be tables as large as it says. -/
def build? (c : OverlayConfig) : Option (Except ConfigError Overlay) :=
  if c.validate.isOk && !c.fits then none else some (build c)

/-- The bits of a local history that have a weight. Fails if there are more than the history
has. -/
def inputOf? (o : Overlay) (h : BitVec 32) : Option (List Bool) :=
  if o.config.inputs ≤ 32 then some (o.inputOf h) else none

/-- Fails if a table is empty, if an index is out of range, or if the output does not fit. -/
def vote? (o : Overlay) (pc : UInt64) : Option Vote :=
  if 0 < o.config.perceptrons ∧ 0 < o.config.localRegisters then do
    let history ← o.histories[o.historyIndex pc]?
    let p ← o.perceptrons[o.perceptronIndex pc]?
    let input ← o.inputOf? history
    let output ← p.output? input
    some ⟨o.perceptronIndex pc, o.historyIndex pc, history, output⟩
  else none

/-- The perceptron that voted, after training. Fails if an index is out of range, or if the
perceptron cannot be trained. -/
def trained? (o : Overlay) (v : Vote) (outcome : Outcome) : Option Perceptron := do
  let p ← o.perceptrons[v.perceptronIndex]?
  let _ ← o.histories[v.historyIndex]?
  let input ← o.inputOf? v.history
  p.train? input outcome o.config.weightBits

/-- Fails as `trained?` does. -/
def train? (o : Overlay) (v : Vote) (outcome : Outcome) : Option Overlay :=
  (o.trained? v outcome).map fun _ => o.train v outcome

end Overlay

end BranchPrediction
