import BranchPrediction.Evaluation.Arguments

/-!
# The command line

Reads the files that the options name, runs the session on them, and prints what it reports.
-/

namespace BranchPrediction

/-- The cause of a failed read. -/
def FileError.ofIO (e : IO.Error) : FileError :=
  match e with
  | .noFileOrDirectory .. => .notFound
  | .inappropriateType _ code _ =>
    -- the code comes with either sign
    if code = 20 ∨ 0 - code = 20 then .notADirectory else .isADirectory
  | .permissionDenied .. => .permissionDenied
  | e => .other (toString e)

def readBytes (path : String) : IO (Except FileError ByteArray) := do
  try
    return .ok (← IO.FS.readBinFile path)
  catch e =>
    return .error (.ofIO e)

def readText (path : String) : IO (Except FileError String) := do
  match ← readBytes path with
  | .error e => return .error e
  | .ok bytes =>
    match String.fromUTF8? bytes with
    | some text => return .ok text
    | none => return .error .invalidText

/-- Runs a session, and gives the exit code. -/
def evaluate (o : Options) : IO UInt32 := do
  let trace ← readBytes o.tracePath
  let config ← o.configPath.mapM readText
  let started ← IO.monoNanosNow
  let transcript ← IO.lazyPure fun _ =>
    Session.run o (trace.map fun bytes => bytes.toList) config
  let elapsed := (← IO.monoNanosNow) - started
  transcript.opening.forM IO.println
  if transcript.failure.isNone then IO.println (Report.elapsedLine elapsed)
  transcript.results.forM IO.println
  transcript.errorLines.forM IO.eprintln
  return UInt32.ofNat transcript.exitCode

end BranchPrediction

def main (args : List String) : IO UInt32 := do
  match BranchPrediction.Options.ofWords args with
  | .ok o => BranchPrediction.evaluate o
  | .error e =>
    IO.eprintln ("error: " ++ e.message)
    return 2
