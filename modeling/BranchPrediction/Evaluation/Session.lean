import BranchPrediction.Config.Format
import BranchPrediction.Evaluation.Report
import BranchPrediction.Trace.Basic

/-!
# Evaluation sessions

One evaluation from its options: the trace is loaded, the predictor is built, the trace is
simulated, and the report is written. The first step that fails ends the session.
-/

namespace BranchPrediction

/-- What an evaluation is asked to do. -/
structure Options where
  tracePath : String
  variant : Variant := .tage
  /-- a configuration file that takes the place of the preset -/
  configPath : Option String := none
  /-- takes the place of the configured seed -/
  seed : Option UInt64 := none
  limit : Option Nat := none
  worst : Nat := 8
  deriving DecidableEq, Repr

namespace Session

/-- The configuration, from what was found in the configuration file if there is one. -/
def config (o : Options) (contents : Option (Except FileError String)) :
    Except Failure Config := do
  let c ←
    match contents with
    | none => .ok o.variant.preset
    | some (.error e) => .error (.file e)
    | some (.ok text) => (Config.ofJson text).mapError .json
  .ok { c with seed := o.seed.getD c.seed }

def predictor (o : Options) (contents : Option (Except FileError String)) :
    Except Failure Predictor := do
  let c ← config o contents
  match Predictor.build? c with
  | some built => built.mapError .config
  | none => .error .capacity

/-- What a session printed before and after its simulation, and the failure that ended it early,
if one did. -/
structure Transcript where
  opening : List String
  results : List String := []
  failure : Option Failure := none
  deriving DecidableEq, Repr

/-- The lines on the output stream. -/
def Transcript.lines (t : Transcript) : List String :=
  t.opening ++ t.results

/-- The lines on the error stream. -/
def Transcript.errorLines (t : Transcript) : List String :=
  (t.failure.map fun e => "[!] " ++ e.message).toList

def Transcript.exitCode (t : Transcript) : Nat :=
  if t.failure.isSome then 1 else 0

/-- A whole session, from what was found in the trace file and in the configuration file. -/
def run (o : Options) (trace : Except FileError (List UInt8))
    (config : Option (Except FileError String)) : Transcript :=
  match Trace.ofFile o.tracePath trace with
  | .error e => { opening := [], failure := some e }
  | .ok trace =>
    let loaded := Report.loadedLine o.tracePath trace.records.length
    match predictor o config with
    | .error e => { opening := [loaded], failure := some e }
    | .ok p =>
      let s := Simulation.run { predictor := p } o.limit trace.records
      { opening := loaded :: Report.configLines p, results := Report.resultLines s o.worst }

end Session

end BranchPrediction
