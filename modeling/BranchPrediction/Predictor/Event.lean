import BranchPrediction.Predictor.Run

/-!
# Events

What a predictor reports while it works, and how each event is worded. Events are computed from
the state before the call that they belong to.
-/

namespace BranchPrediction

/-- A number in hexadecimal digits without leading zeros, after the mark `0x`. -/
def hexadecimal (n : Nat) : String :=
  "0x" ++ String.ofList (Nat.toDigits 16 n)

def Provider.render : Provider → String
  | base => "Base"
  | tagged i => "Tagged(" ++ toString i ++ ")"

/-- Things that a predictor reports. -/
inductive Event where
  | built (variant : Variant) (entries storageBits : Nat) (lengths : List Nat)
  | predicted (pc : UInt64) (provider alternate : Provider) (outcome : Outcome)
  | allocated (pc : UInt64) (table : Nat) (slot : Slot)
  | reset (clock : Nat)
  | orphan (pc : UInt64)
  deriving DecidableEq, Repr

namespace Event

/-- How much attention an event deserves. -/
def level : Event → String
  | built .. => "DEBUG"
  | predicted .. | allocated .. => "TRACE"
  | reset .. => "INFO"
  | orphan .. => "WARN"

def message : Event → String
  | built variant entries storageBits lengths =>
    variant.displayName ++ " predictor: " ++ toString entries ++ " entries, "
      ++ toString storageBits ++ " storage bits, histories " ++ renderLengths lengths
  | predicted pc provider alternate outcome =>
    "predict " ++ hexadecimal pc.toNat ++ ": provider=" ++ provider.render ++ " alt="
      ++ alternate.render ++ " outcome=" ++ outcome.letter.toString
  | allocated pc table slot =>
    "allocated " ++ hexadecimal pc.toNat ++ " in component " ++ toString table ++ " (index "
      ++ hexadecimal slot.index ++ ", tag " ++ hexadecimal slot.tag ++ ")"
  | reset clock =>
    "resetting 'useful' counters after " ++ toString clock ++ " branches"
  | orphan pc =>
    "resolved branch " ++ hexadecimal pc.toNat ++ " without a prediction"

def render (e : Event) : String :=
  e.level ++ " " ++ e.message

end Event

namespace Predictor

def buildEvents (c : Config) : List Event :=
  [.built c.variant c.totalEntries c.storageBits c.historyLengths]

def predictEvents (p : Predictor) (pc : UInt64) : List Event :=
  let ctx := p.lookup pc
  [.predicted pc ctx.provider ctx.alternate ctx.outcome]

/-- The events of learning from a prediction. -/
def trainEvents (p : Predictor) (ctx : Context) (outcome : Outcome) : List Event :=
  let allocations :=
    match (p.allocated ctx outcome).2 with
    | .made i =>
      match ctx.slots[i]? with
      | some slot => [.allocated ctx.pc i slot]
      | none => []
    | _ => []
  allocations ++ if p.resetsNext then [.reset p.tally.clock] else []

def resolveEvents (p : Predictor) (pc : UInt64) (outcome : Outcome) : List Event :=
  match p.pending with
  | some ctx => (p.advance pc outcome).trainEvents ctx outcome
  | none => [.orphan pc]

def stepEvents (p : Predictor) : Call → List Event
  | .predict pc => p.predictEvents pc
  | .resolve pc _ outcome _ => p.resolveEvents pc outcome
  | .advance .. | .clearUseful => []

/-- The events of a sequence of calls, in the order in which they are reported. -/
def runEvents (p : Predictor) : List Call → List Event
  | [] => []
  | call :: after => p.stepEvents call ++ (p.step call).runEvents after

end Predictor

end BranchPrediction
