import BranchPrediction.Branch.Record

/-!
# Accuracy

How well branches were predicted: over all branches, over each window of a thousand branches, and
for each address. The addresses are kept in increasing order.
-/

namespace BranchPrediction

/-- The number of branches in a window. -/
def windowSize : Nat := 1000

/-- What was seen of the branch at one address. -/
structure BranchTally where
  occurrences : Nat := 0
  hits : Nat := 0
  /-- all outcomes, the first one first -/
  outcomes : Array Outcome := #[]
  deriving DecidableEq, Repr

namespace BranchTally

def record (b : BranchTally) (outcome : Outcome) (hit : Bool) : BranchTally where
  occurrences := b.occurrences + 1
  hits := b.hits + if hit then 1 else 0
  outcomes := b.outcomes.push outcome

/-- The share of right predictions, which is not a number for a branch that was never seen. -/
def hitRate (b : BranchTally) : Float :=
  Float.ofNat b.hits / Float.ofNat b.occurrences

def timesTaken (b : BranchTally) : Nat :=
  b.outcomes.count .taken

/-- The first `n` outcomes, as letters. -/
def pattern (b : BranchTally) (n : Nat) : String :=
  Outcome.listToString (b.outcomes.toList.take n)

end BranchTally

/-! ## Tallies by address -/

/-- The entry of an address in a list ordered by address, if there is one. -/
def findBranch? (pc : UInt64) : List (UInt64 × BranchTally) → Option BranchTally
  | [] => none
  | (k, b) :: rest => if k = pc then some b else findBranch? pc rest

/-- Changes the entry of an address in a list ordered by address. A missing entry is put in its
place first. -/
def alterBranch (pc : UInt64) (f : BranchTally → BranchTally) :
    List (UInt64 × BranchTally) → List (UInt64 × BranchTally)
  | [] => [(pc, f {})]
  | (k, b) :: rest =>
    if k = pc then (k, f b) :: rest
    else if pc < k then (pc, f {}) :: (k, b) :: rest
    else (k, b) :: alterBranch pc f rest

/-- The accuracy of the predictions so far. -/
structure Accuracy where
  branches : List (UInt64 × BranchTally) := []
  hits : Nat := 0
  total : Nat := 0
  /-- wrong predictions in each full window, the first window first -/
  windows : Array Nat := #[]
  /-- wrong predictions since the last full window -/
  windowMisses : Nat := 0
  deriving DecidableEq, Repr

namespace Accuracy

/-- Records the prediction made for a branch. -/
def update (a : Accuracy) (r : Record) (predicted : Outcome) : Accuracy :=
  let hit := predicted == r.outcome
  let total := a.total + 1
  let misses := a.windowMisses + if hit then 0 else 1
  let full := total % windowSize == 0
  { branches := alterBranch r.pc (·.record r.outcome hit) a.branches
    hits := a.hits + if hit then 1 else 0
    total
    windows := if full then a.windows.push misses else a.windows
    windowMisses := if full then 0 else misses }

/-- Makes sure that there is an entry for an address. -/
def touch (a : Accuracy) (pc : UInt64) : Accuracy :=
  { a with branches := alterBranch pc id a.branches }

def find? (a : Accuracy) (pc : UInt64) : Option BranchTally :=
  findBranch? pc a.branches

/-- Wrong predictions. -/
def misses (a : Accuracy) : Nat :=
  a.total - a.hits

def hitRate (a : Accuracy) : Float :=
  if a.total = 0 then 0.0 else Float.ofNat a.hits / Float.ofNat a.total

/-- Wrong predictions per thousand branches: the mean over the full windows, or the number so far
if none is full. -/
def missesPerWindow (a : Accuracy) : Float :=
  if a.windows.isEmpty then Float.ofNat a.misses
  else Float.ofNat a.windows.sum / Float.ofNat a.windows.size

def uniqueBranches (a : Accuracy) : Nat :=
  a.branches.length

/-- Whether a branch was seen often enough and predicted badly enough. -/
def qualifies (minOccurrences : Nat) (maxRate : Float) (b : BranchTally) : Bool :=
  minOccurrences ≤ b.occurrences && b.hitRate ≤ maxRate

/-- The `n` most frequent of the badly predicted branches, the most frequent one first, and the
one with the higher address first among equally frequent ones. -/
def worst (a : Accuracy) (n minOccurrences : Nat) (maxRate : Float) :
    List (UInt64 × BranchTally) :=
  (((a.branches.filter fun e => qualifies minOccurrences maxRate e.2).mergeSort
    fun d e => d.2.occurrences ≤ e.2.occurrences).reverse).take n

end Accuracy

end BranchPrediction
