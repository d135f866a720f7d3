/-!
# Predictor configurations

What a predictor is built from: the sizes and widths of its tables, the optional perceptron
overlay and path history, the seed of its generator, and how often usefulness is cleared.
-/

namespace BranchPrediction

/-- A saturating counter. Without an initial value it starts weakly not taken. -/
structure CounterConfig where
  bits : Nat
  initial : Option Nat := none
  deriving DecidableEq, Repr

/-- The untagged base table. -/
structure BaseConfig where
  counter : CounterConfig := ⟨3, none⟩
  size : Nat := 4096
  deriving DecidableEq, Repr

/-- A tagged table, indexed and tagged with the newest `historyLength` outcomes. -/
structure TableConfig where
  size : Nat := 1024
  historyLength : Nat := 8
  tagBits : Nat := 8
  usefulBits : Nat := 2
  counter : CounterConfig := ⟨3, none⟩
  deriving DecidableEq, Repr

/-- The perceptron overlay. Its vote counts when the magnitude of the output is above
`threshold`. -/
structure OverlayConfig where
  perceptrons : Nat := 1024
  weights : Nat := 16
  weightBits : Nat := 7
  localRegisters : Nat := 256
  localLength : Nat := 13
  threshold : Int := 14
  deriving DecidableEq, Repr

/-- The path history: each branch shifts in `bitsPerBranch` address bits, after dropping the
lowest `alignBits` of the address. -/
structure PathConfig where
  length : Nat := 96
  bitsPerBranch : Nat := 6
  alignBits : Nat := 2
  deriving DecidableEq, Repr

/-- A predictor. The tagged tables are listed from the shortest history to the longest, and
usefulness is cleared with probability `2 ^ -usefulResetLog2` after each resolved branch. -/
structure Config where
  base : BaseConfig
  tables : List TableConfig
  overlay : Option OverlayConfig
  path : Option PathConfig
  seed : UInt64
  usefulResetLog2 : Nat
  deriving DecidableEq, Repr

/-- The two kinds of predictor: tagged tables alone, and with a perceptron overlay. -/
inductive Variant where
  | tage
  | neuralTage
  deriving DecidableEq, Repr

namespace Variant

/-- The name shown to people. -/
def displayName : Variant → String
  | tage => "TAGE"
  | neuralTage => "NeuralTAGE"

end Variant

/-! ## Storage -/

def CounterConfig.storageBits (c : CounterConfig) : Nat :=
  c.bits

def BaseConfig.storageBits (c : BaseConfig) : Nat :=
  c.counter.storageBits * c.size

def TableConfig.storageBits (c : TableConfig) : Nat :=
  (c.counter.storageBits + c.usefulBits + c.tagBits) * c.size

namespace OverlayConfig

/-- How many weights are paired with a bit of local history. -/
def inputs (c : OverlayConfig) : Nat :=
  min c.weights c.localLength

def storageBits (c : OverlayConfig) : Nat :=
  c.perceptrons * (c.weights + 1) * c.weightBits + c.localRegisters * c.localLength

end OverlayConfig

namespace Config

/-- A predictor over `base` with no tagged tables yet. -/
def ofBase (base : BaseConfig) : Config :=
  ⟨base, [], none, none, 0, 26⟩

/-- Adds a tagged table, keeping the tables in order of history length. Tables of equal length
keep the order in which they were added. -/
def add (c : Config) (t : TableConfig) : Config :=
  { c with tables := (c.tables ++ [t]).mergeSort fun a b => a.historyLength ≤ b.historyLength }

def variant (c : Config) : Variant :=
  if c.overlay.isSome then .neuralTage else .tage

def historyLengths (c : Config) : List Nat :=
  c.tables.map TableConfig.historyLength

/-- The length of the global history: one more than any table spans, so that the bit that leaves
a span is still held. -/
def globalLength (c : Config) : Nat :=
  c.historyLengths.foldl max 0 + 1

def totalEntries (c : Config) : Nat :=
  c.base.size + (c.tables.map TableConfig.size).sum

def storageBits (c : Config) : Nat :=
  (c.tables.map TableConfig.storageBits).sum + c.base.storageBits
    + (c.overlay.map OverlayConfig.storageBits).getD 0 + (c.path.map PathConfig.length).getD 0
    + c.globalLength

end Config

end BranchPrediction
