/-!
# Configuration errors

Why a configuration does not describe a predictor, and how each cause is worded.
-/

namespace BranchPrediction

/-- Numbers between brackets, separated by commas. -/
def renderLengths (ns : List Nat) : String :=
  "[" ++ String.intercalate ", " (ns.map toString) ++ "]"

/-- The tables whose sizes have to be powers of two. -/
inductive TableRole where
  | base
  | tagged
  deriving DecidableEq, Repr

def TableRole.name : TableRole → String
  | base => "base component"
  | tagged => "tagged component"

/-- The causes for which a configuration is refused. -/
inductive ConfigError where
  | notPowerOfTwo (role : TableRole) (size : Nat)
  | counterWidth (bits : Nat)
  | tagWidth (bits : Nat)
  | noTables
  | historyLengths (lengths : List Nat)
  | localLength (length : Nat)
  | emptyOverlay
  | negativeThreshold (threshold : Int)
  | pathShape (length bitsPerBranch : Nat)
  | resetPeriod (log2 : Nat)
  deriving DecidableEq, Repr

namespace ConfigError

/-- The wording of a parameter that has no cause of its own. -/
def invalid (text : String) : String :=
  "invalid parameter: " ++ text

def message : ConfigError → String
  | notPowerOfTwo role size =>
    role.name ++ " size must be a power of two (got " ++ toString size ++ ")"
  | counterWidth bits => "counter width must be in 1..=8 bits (got " ++ toString bits ++ ")"
  | tagWidth bits => "tag width must be in 2..=16 bits (got " ++ toString bits ++ ")"
  | noTables => "at least one tagged component is required"
  | historyLengths lengths =>
    "history lengths must be strictly increasing and non-zero (got "
      ++ renderLengths lengths ++ ")"
  | localLength length =>
    "local history length must be in 1..=32 bits (got " ++ toString length ++ ")"
  | emptyOverlay =>
    invalid "neural overlay needs at least one neuron and one local history"
  | negativeThreshold threshold =>
    invalid ("negative neural threshold " ++ toString threshold)
  | pathShape length bitsPerBranch =>
    invalid ("path history of " ++ toString length ++ " bits cannot take "
      ++ toString bitsPerBranch ++ " bits per branch")
  | resetPeriod log2 =>
    invalid ("useful reset period 2^" ++ toString log2 ++ " is out of range")

end ConfigError

end BranchPrediction
