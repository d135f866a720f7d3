import BranchPrediction.Config.Capacity
import BranchPrediction.Config.Validation
import BranchPrediction.Counter

/-!
# The base table

An untagged table of saturating counters. An address is hashed to an index by folding its high
bits onto the low ones; the size of the table is a power of two.
-/

namespace BranchPrediction

/-- A table of counters. -/
structure BaseTable where
  config : BaseConfig
  counters : Array Counter
  deriving DecidableEq, Repr

namespace BaseTable

def ofConfig (c : BaseConfig) : BaseTable :=
  ⟨c, Array.replicate c.size (.ofConfig c.counter)⟩

/-- Fails on a counter of no valid width, or if there cannot be so large a table. -/
def ofConfig? (c : BaseConfig) : Option BaseTable := do
  let _ ← Counter.ofConfig? c.counter
  if c.fits then some (ofConfig c) else none

/-- The mask that brings a number into the range of indices. -/
def mask (t : BaseTable) : Nat :=
  t.config.size - 1

/-- Whether the size is one for which there is a mask. -/
def hasMask (t : BaseTable) : Bool :=
  isPowerOfTwo t.config.size

def index (t : BaseTable) (pc : UInt64) : Nat :=
  (pc.toNat ^^^ (pc.toNat >>> t.config.size.log2)) &&& t.mask

/-- The counter at an index, taken modulo the size. -/
def counter (t : BaseTable) (i : Nat) : Counter :=
  t.counters[i &&& t.mask]?.getD (.ofConfig t.config.counter)

def modify (t : BaseTable) (i : Nat) (f : Counter → Counter) : BaseTable :=
  { t with counters := t.counters.modify (i &&& t.mask) f }

/-- Moves the counter at an index toward an outcome. -/
def update (t : BaseTable) (i : Nat) (outcome : Outcome) : BaseTable :=
  t.modify i (·.update outcome)

/-! ## Checked operations -/

/-- Fails if there is no mask, or if the size takes more bits than an address has. -/
def index? (t : BaseTable) (pc : UInt64) : Option Nat :=
  if t.hasMask ∧ t.config.size.log2 < wordBits then some (t.index pc) else none

/-- Fails if there is no mask, or no counter at the index. -/
def counter? (t : BaseTable) (i : Nat) : Option Counter :=
  if t.hasMask then t.counters[i &&& t.mask]? else none

/-- Fails as `counter?` does. -/
def modify? (t : BaseTable) (i : Nat) (f : Counter → Counter) : Option BaseTable :=
  (t.counter? i).map fun _ => t.modify i f

/-- Fails as `counter?` does, or if the counter cannot be updated. -/
def update? (t : BaseTable) (i : Nat) (outcome : Outcome) : Option BaseTable := do
  let c ← t.counter? i
  let c ← c.update? outcome
  some (t.modify i fun _ => c)

end BaseTable

end BranchPrediction
