import BranchPrediction.Predictor.Context

/-!
# Tallies

Counts of what a predictor did.
-/

namespace BranchPrediction

/-- What came of allocating an entry for a branch. -/
inductive Allocation where
  /-- the prediction was right, and nothing was tried -/
  | notNeeded
  /-- no entry could be replaced -/
  | failed
  /-- the entry of the branch in this tagged table was replaced -/
  | made (table : Nat)
  deriving DecidableEq, Repr

/-- Counts of what a predictor did since it was built. -/
structure Tally where
  allocations : Nat := 0
  failedAllocations : Nat := 0
  baseHits : Nat := 0
  baseMisses : Nat := 0
  /-- right predictions of each tagged table -/
  taggedHits : List Nat
  taggedMisses : List Nat
  /-- how often the overlay overruled the tables, and how often it was right then -/
  overrides : Nat := 0
  overrideHits : Nat := 0
  /-- how often all usefulness was cleared -/
  resets : Nat := 0
  /-- resolved branches without a prediction -/
  orphans : Nat := 0
  /-- resolved branches -/
  clock : Nat := 0
  deriving DecidableEq, Repr

namespace Tally

/-- Nothing counted yet, for a number of tagged tables. -/
def zero (tables : Nat) : Tally :=
  { taggedHits := List.replicate tables 0, taggedMisses := List.replicate tables 0 }

/-- Right predictions of any table. -/
def tableHits (t : Tally) : Nat :=
  t.baseHits + t.taggedHits.sum

def tableMisses (t : Tally) : Nat :=
  t.baseMisses + t.taggedMisses.sum

def countProvider (t : Tally) (provider : Provider) (hit : Bool) : Tally :=
  match provider, hit with
  | .base, true => { t with baseHits := t.baseHits + 1 }
  | .base, false => { t with baseMisses := t.baseMisses + 1 }
  | .tagged i, true => { t with taggedHits := t.taggedHits.modify i (· + 1) }
  | .tagged i, false => { t with taggedMisses := t.taggedMisses.modify i (· + 1) }

/-- Counts an override, and a right one if the prediction was right. -/
def countOverride (t : Tally) (override hit : Bool) : Tally :=
  if override then
    { t with
      overrides := t.overrides + 1
      overrideHits := t.overrideHits + if hit then 1 else 0 }
  else t

def countAllocation (t : Tally) : Allocation → Tally
  | .notNeeded => t
  | .failed => { t with failedAllocations := t.failedAllocations + 1 }
  | .made _ => { t with allocations := t.allocations + 1 }

def countReset (t : Tally) (reset : Bool) : Tally :=
  if reset then { t with resets := t.resets + 1 } else t

def countOrphan (t : Tally) : Tally :=
  { t with orphans := t.orphans + 1 }

def tick (t : Tally) : Tally :=
  { t with clock := t.clock + 1 }

end Tally

end BranchPrediction
