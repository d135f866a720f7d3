import BranchPrediction.Bounds
import BranchPrediction.Config.Basic
import BranchPrediction.Outcome

/-!
# Saturating counters

A counter holds a number between zero and its greatest value and stays there when it is pushed
beyond either end. Values in the upper half predict a taken branch.
-/

namespace BranchPrediction

/-- An unsigned saturating counter. -/
structure Counter where
  max : Nat
  value : Nat
  value_le_max : value ≤ max
  deriving DecidableEq, Repr

namespace Counter

/-- The value next to the middle on the side of `outcome`. -/
def weakValue (max : Nat) : Outcome → Nat
  | .notTaken => max / 2
  | .taken => min max (max / 2 + 1)

theorem weakValue_le (max : Nat) (o : Outcome) : weakValue max o ≤ max := by
  cases o <;> simp only [weakValue] <;> omega

/-- The counter that predicts `outcome` and is one step from predicting the other. -/
def weak (max : Nat) (outcome : Outcome) : Counter :=
  ⟨max, weakValue max outcome, weakValue_le max outcome⟩

/-- A counter of `bits` bits, weakly not taken. -/
def ofWidth (bits : Nat) : Counter :=
  weak (2 ^ bits - 1) .notTaken

/-- Puts the counter at `x`, or at its greatest value if `x` is beyond it. -/
def set (c : Counter) (x : Nat) : Counter :=
  ⟨c.max, min x c.max, Nat.min_le_right _ _⟩

/-- Moves the counter by `delta`, stopping at either end. -/
def add (c : Counter) (delta : Int) : Counter :=
  c.set (c.value + delta).toNat

def increment (c : Counter) : Counter := c.add 1

def decrement (c : Counter) : Counter := c.add (-1)

/-- Whether the value is in the upper half. -/
def isHigh (c : Counter) : Bool :=
  c.max / 2 < c.value

def predict (c : Counter) : Outcome :=
  .ofBool c.isHigh

/-- One step toward the outcome. -/
def update (c : Counter) (outcome : Outcome) : Counter :=
  c.add outcome.sign

def setWeak (c : Counter) (outcome : Outcome) : Counter :=
  weak c.max outcome

def isSaturated (c : Counter) : Bool :=
  c.value == 0 || c.value == c.max

/-- Fails if the sum before it is brought into range does not fit. -/
def add? (c : Counter) (delta : Int) : Option Counter :=
  (addInt32? c.value delta).map fun _ => c.add delta

def update? (c : Counter) (outcome : Outcome) : Option Counter :=
  c.add? outcome.sign

/-! ## Counters of a configuration -/

/-- The counter that a configuration describes. -/
def ofConfig (c : CounterConfig) : Counter :=
  match c.initial with
  | none => ofWidth c.bits
  | some x => (ofWidth c.bits).set x

/-- Fails if the width is not between one and eight bits. -/
def ofConfig? (c : CounterConfig) : Option Counter :=
  if 1 ≤ c.bits ∧ c.bits ≤ 8 then some (ofConfig c) else none

/-! ## What the operations do to the value -/

@[simp] theorem max_set (c : Counter) (x : Nat) : (c.set x).max = c.max := rfl

@[simp] theorem value_set (c : Counter) (x : Nat) : (c.set x).value = min x c.max := rfl

@[simp] theorem max_add (c : Counter) (d : Int) : (c.add d).max = c.max := rfl

@[simp] theorem value_add (c : Counter) (d : Int) :
    (c.add d).value = min (c.value + d).toNat c.max := rfl

@[simp] theorem max_update (c : Counter) (o : Outcome) : (c.update o).max = c.max := rfl

@[simp] theorem max_setWeak (c : Counter) (o : Outcome) : (c.setWeak o).max = c.max := rfl

@[simp] theorem max_ofWidth (bits : Nat) : (ofWidth bits).max = 2 ^ bits - 1 := rfl

@[simp] theorem max_ofConfig (c : CounterConfig) : (ofConfig c).max = 2 ^ c.bits - 1 := by
  unfold ofConfig
  split <;> simp

theorem value_increment (c : Counter) : c.increment.value = min (c.value + 1) c.max := by
  simp only [increment, value_add]
  omega

theorem value_decrement (c : Counter) : c.decrement.value = c.value - 1 := by
  have := c.value_le_max
  simp only [decrement, value_add]
  omega

/-- A counter set to a weak state predicts the outcome, if it has room for two values. -/
theorem predict_setWeak (c : Counter) (o : Outcome) (h : 0 < c.max) :
    (c.setWeak o).predict = o := by
  cases o
  · simp [predict, isHigh, setWeak, weak, weakValue, Outcome.ofBool]
  · have : c.max / 2 < min c.max (c.max / 2 + 1) := by omega
    simp [predict, isHigh, setWeak, weak, weakValue, Outcome.ofBool, this]

end Counter

end BranchPrediction
