import BranchPrediction.Evaluation.Session

/-!
# Command-line arguments

The words of a command line, read as the options of an evaluation: the path of one trace, and
values for any of the keys. A value is the next word, or stands in the word of its key: after an
equals sign, or directly behind a key of one letter.
-/

namespace BranchPrediction

/-- What a command line may give a value for. -/
inductive OptionKey where
  | kind
  | config
  | seed
  | limit
  | worst
  deriving DecidableEq, Repr

namespace OptionKey

def all : List OptionKey := [kind, config, seed, limit, worst]

/-- The name after two dashes. -/
def name : OptionKey → String
  | kind => "kind"
  | config => "config"
  | seed => "seed"
  | limit => "limit"
  | worst => "low-rate"

/-- The letter after one dash. -/
def letter? : OptionKey → Option Char
  | kind => some 'k'
  | config => some 'c'
  | seed => some 's'
  | limit => some 'l'
  | worst => none

end OptionKey

/-- Why a command line is refused. -/
inductive UsageError where
  | noTrace
  | secondTrace (path : String)
  | unknownKey (word : String)
  | repeatedKey (key : OptionKey)
  | noValue (key : OptionKey)
  | invalidValue (key : OptionKey) (value : String)
  deriving DecidableEq, Repr

namespace UsageError

def message : UsageError → String
  | noTrace => "a trace is required"
  | secondTrace path => "unexpected argument '" ++ path ++ "'"
  | unknownKey word => "unexpected argument '" ++ word ++ "'"
  | repeatedKey key => "the argument '--" ++ key.name ++ "' is given twice"
  | noValue key => "the argument '--" ++ key.name ++ "' needs a value"
  | invalidValue key value =>
    "invalid value '" ++ value ++ "' for the argument '--" ++ key.name ++ "'"

end UsageError

/-! ## Words -/

/-- What one word of a command line is. -/
inductive Argument where
  | path (text : String)
  /-- a key, with its value if the word holds one -/
  | key (key : OptionKey) (value : Option String)
  /-- two dashes alone, after which every word is a path -/
  | endOfKeys
  | unknown
  deriving DecidableEq, Repr

namespace Argument

/-- The value behind an equals sign. -/
def assigned? : List Char → Option String
  | [] => none
  | _ :: value => some (String.ofList value)

/-- The value behind a key of one letter, with an equals sign or without one. -/
def attached? : List Char → Option String
  | [] => none
  | c :: value => some (String.ofList (if c = '=' then value else c :: value))

def ofString (word : String) : Argument :=
  match word.toList with
  | ['-', '-'] => endOfKeys
  | '-' :: '-' :: cs =>
    match OptionKey.all.find? fun k => k.name.toList == cs.takeWhile (· != '=') with
    | some k => key k (assigned? (cs.dropWhile (· != '=')))
    | none => unknown
  | '-' :: c :: cs =>
    match OptionKey.all.find? fun k => k.letter? == some c with
    | some k => key k (attached? cs)
    | none => unknown
  | _ => path word

end Argument

/-! ## Command lines -/

/-- What the words so far have given. -/
structure Arguments where
  trace : Option String := none
  values : List (OptionKey × String) := []
  deriving DecidableEq, Repr

namespace Arguments

def withTrace (a : Arguments) (path : String) : Except UsageError Arguments :=
  if a.trace.isSome then .error (.secondTrace path) else .ok { a with trace := some path }

def withValue (a : Arguments) (k : OptionKey) (value : String) : Except UsageError Arguments :=
  if (a.values.lookup k).isSome then .error (.repeatedKey k)
  else .ok { a with values := (k, value) :: a.values }

/-- Reads words from the left to the right. A key at the end or before another key has no value. -/
def read : Arguments → List String → Except UsageError Arguments
  | a, [] => .ok a
  | a, word :: words =>
    match Argument.ofString word with
    | .path text => do read (← a.withTrace text) words
    | .key k (some value) => do read (← a.withValue k value) words
    | .key k none =>
      match words with
      | [] => .error (.noValue k)
      | value :: words =>
        match Argument.ofString value with
        | .path value => do read (← a.withValue k value) words
        | _ => .error (.noValue k)
    | .endOfKeys => words.foldlM withTrace a
    | .unknown => .error (.unknownKey word)

/-- The value of a key, if it was given one. -/
def value {α : Type} (a : Arguments) (k : OptionKey) (read : String → Option α) :
    Except UsageError (Option α) :=
  match a.values.lookup k with
  | none => .ok none
  | some text =>
    match read text with
    | some x => .ok (some x)
    | none => .error (.invalidValue k text)

end Arguments

/-- A number of up to 64 bits in decimal digits, with a plus sign or without one. -/
def natOfText? (text : String) : Option Nat :=
  let digits := match text.toList with
    | c :: cs => if c = '+' then cs else c :: cs
    | [] => []
  let n := Nat.ofDigitChars 10 digits 0
  if digits != [] && digits.all Char.isDigit && n < 2 ^ 64 then some n else none

/-- The variant of a name on the command line. -/
def Variant.ofText? (text : String) : Option Variant :=
  if text = "tage" then some .tage
  else if text = "neural-tage" then some .neuralTage
  else none

namespace Options

def ofArguments (a : Arguments) : Except UsageError Options := do
  let variant ← a.value .kind Variant.ofText?
  let configPath ← a.value .config some
  let seed ← a.value .seed natOfText?
  let limit ← a.value .limit natOfText?
  let worst ← a.value .worst natOfText?
  match a.trace with
  | none => .error .noTrace
  | some tracePath =>
    .ok {
      tracePath, configPath, limit
      variant := variant.getD .tage
      seed := seed.map UInt64.ofNat
      worst := worst.getD 8 }

/-- The options that a command line asks for. -/
def ofWords (words : List String) : Except UsageError Options := do
  ofArguments (← Arguments.read {} words)

end Options

end BranchPrediction
