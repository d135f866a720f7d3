import BranchPrediction.Counter

/-!
# Tagged entries

An entry of a tagged table predicts for the branch whose tag it holds. Its usefulness guards it
from being given to another branch.
-/

namespace BranchPrediction

/-- An entry of a tagged table. It is valid once it has a tag. -/
structure Entry where
  counter : Counter
  useful : Counter
  tag : Option Nat
  deriving DecidableEq, Repr

namespace Entry

/-- An entry that was never allocated. -/
def fresh (c : TableConfig) : Entry :=
  ⟨.ofConfig c.counter, (Counter.ofWidth c.usefulBits).set 0, none⟩

def predict (e : Entry) : Outcome :=
  e.counter.predict

def isValid (e : Entry) : Bool :=
  e.tag.isSome

def holds (e : Entry) (tag : Nat) : Bool :=
  e.tag == some tag

/-- Whether the entry may be given to another branch. -/
def isReplaceable (e : Entry) : Bool :=
  e.useful.value == 0

/-- Gives the entry to a branch, weakly predicting the outcome that was seen. -/
def allocate (e : Entry) (tag : Nat) (outcome : Outcome) : Entry :=
  ⟨e.counter.setWeak outcome, e.useful.set 0, some tag⟩

/-- Takes usefulness away by one step. -/
def age (e : Entry) : Entry :=
  { e with useful := e.useful.decrement }

def clearUseful (e : Entry) : Entry :=
  { e with useful := e.useful.set 0 }

/-- Trains the entry that provided a prediction. Its usefulness moves only when the alternate
prediction was another: up if the entry was right, down if it was wrong. -/
def train (e : Entry) (predicted alternate outcome : Outcome) : Entry :=
  { e with
    counter := e.counter.update outcome
    useful :=
      if predicted = alternate then e.useful
      else if predicted = outcome then e.useful.increment
      else e.useful.decrement }

/-- Fails if a counter cannot be moved. -/
def train? (e : Entry) (predicted alternate outcome : Outcome) : Option Entry := do
  let _ ← e.counter.update? outcome
  let _ ← e.useful.update? (if predicted = outcome then .taken else .notTaken)
  some (e.train predicted alternate outcome)

/-- Fails if the usefulness cannot be moved. -/
def age? (e : Entry) : Option Entry :=
  (e.useful.add? (-1)).map fun _ => e.age

end Entry

end BranchPrediction
