/-!
# Machine words and capacities

Addresses and lengths are words of 64 bits, and sums of counters and weights are integers of 32
bits. Tables and history registers can be large, but not larger than what can be addressed. The
predictor's operations are total and do not depend on these limits. Each has a checked partner, with
a question mark after its name, that fails where a limit or the end of a table would be passed.
-/

-- powers and sums of numbers are those that evaluate, whatever else is imported
attribute [instance (high), default_instance (20000)] instPowNat
attribute [instance (high)] Zero.ofOfNat0

namespace BranchPrediction

/-- The width of an address; shifts are by less. -/
def wordBits : Nat := 64

/-- The sum of two words. Fails if it does not fit. -/
def addWord? (x y : Nat) : Option Nat :=
  if x + y < 2 ^ wordBits then some (x + y) else none

/-- Whether an integer is in the range of 32 bits in two's complement. -/
def fitsInt32 (x : Int) : Bool :=
  -2 ^ 31 ≤ x && x < 2 ^ 31

/-- The sum of two integers. Fails if it does not fit. -/
def addInt32? (x y : Int) : Option Int :=
  if fitsInt32 (x + y) then some (x + y) else none

/-- Whether there can be a table of `count` entries of `bytes` bytes each. -/
def fitsTable (count bytes : Nat) : Bool :=
  count * bytes < 2 ^ 63

/-- Whether there can be a history register of a length. -/
def fitsHistory (length : Nat) : Bool :=
  length < 2 ^ 61

end BranchPrediction
