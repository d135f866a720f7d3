import BranchPrediction.Config.Error
import BranchPrediction.Json.Lexeme
import BranchPrediction.Trace.Bytes

/-!
# Failures

Why an evaluation cannot be run, and how each cause is worded.
-/

namespace BranchPrediction

/-- Why a file cannot be read. -/
inductive FileError where
  | notFound
  | notADirectory
  | isADirectory
  | permissionDenied
  | nameTooLong
  | invalidText
  | other (text : String)
  deriving DecidableEq, Repr

def FileError.message : FileError → String
  | notFound => "No such file or directory (os error 2)"
  | notADirectory => "Not a directory (os error 20)"
  | isADirectory => "Is a directory (os error 21)"
  | permissionDenied => "Permission denied (os error 13)"
  | nameTooLong => "File name too long (os error 36)"
  | invalidText => "stream did not contain valid UTF-8"
  | other text => text

/-- Why an evaluation cannot be run. -/
inductive Failure where
  | config (e : ConfigError)
  /-- the configuration is valid, but there cannot be tables as large as it says -/
  | capacity
  | file (e : FileError)
  | json (e : Json.ReadError)
  | traceLength (name : String) (length : Nat)
  deriving DecidableEq, Repr

def Json.ReadError.message : Json.ReadError → String
  | endOfText => "the text ended early"
  | malformed => "the text is malformed"
  | wrongData => "the text holds other data than expected"

def Failure.message : Failure → String
  | config e => "configuration error: " ++ e.message
  | capacity => "capacity overflow"
  | file e => "IO error: " ++ e.message
  | json e => "JSON error: " ++ e.message
  | traceLength name length =>
    "malformed trace '" ++ name ++ "': " ++ toString length
      ++ " bytes is not a multiple of the " ++ toString Record.byteSize ++ "-byte record size"

end BranchPrediction
