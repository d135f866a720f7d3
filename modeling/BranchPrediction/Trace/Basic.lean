import BranchPrediction.Failure

/-!
# Traces

A named list of branch records.
-/

namespace BranchPrediction

/-- A list of records from a source of some name. -/
structure Trace where
  name : String
  records : List Record
  deriving DecidableEq, Repr

namespace Trace

def ofBytes (name : String) (bytes : List UInt8) : Except Failure Trace :=
  match recordsOfBytes? bytes with
  | some records => .ok ⟨name, records⟩
  | none => .error (.traceLength name bytes.length)

def toBytes (t : Trace) : List UInt8 :=
  recordsToBytes t.records

/-- The last name in a path. A path that ends in a step upward, or that has no names, has none. -/
def fileName (path : String) : String :=
  match ((path.splitOn "/").filter fun s => s != "" && s != ".").getLast? with
  | some name => if name = ".." then "" else name
  | none => ""

/-- The trace in the file at a path, from what was found there. -/
def ofFile (path : String) (contents : Except FileError (List UInt8)) : Except Failure Trace :=
  match contents with
  | .ok bytes => ofBytes (fileName path) bytes
  | .error e => .error (.file e)

end Trace

end BranchPrediction
