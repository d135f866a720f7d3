import BranchPrediction.Json.Lexeme

/-!
# Numerals

The parts of a JSON number, and the integer that it stands for. Only a numeral without fraction
and exponent stands for an integer, and only if the integer fits in 64 bits; any other numeral is
a floating-point number, which must not be beyond the range of 64-bit floats.
-/

namespace BranchPrediction.Json

/-- The parts of a number as it is written. -/
structure Numeral where
  negative : Bool
  whole : List Char
  fraction : Option (List Char)
  /-- whether the exponent is negative, and its digits -/
  exponent : Option (Bool × List Char)
  deriving DecidableEq, Repr

namespace Numeral

/-- Reads one digit or more. `early` is the error at the end of the text. -/
def readDigits (early : ReadError) (s : List Char) : Reading (List Char × List Char) :=
  match s with
  | [] => .error early
  | c :: _ =>
    if c.isDigit then .ok (s.takeWhile Char.isDigit, s.dropWhile Char.isDigit)
    else .error .malformed

/-- The digits before the point: a single zero, or digits that do not begin with one. -/
def readWhole (early : ReadError) (s : List Char) : Reading (List Char × List Char) := do
  let (ds, rest) ← readDigits early s
  if ds.head? = some '0' ∧ ds.length ≠ 1 then .error .malformed else .ok (ds, rest)

def readFraction (early : ReadError) (s : List Char) : Reading (Option (List Char) × List Char) :=
  match s with
  | c :: rest =>
    if c = '.' then do
      let (ds, rest) ← readDigits early rest
      .ok (some ds, rest)
    else .ok (none, s)
  | [] => .ok (none, s)

/-- The sign of an exponent, if it is written: whether it is a minus. -/
def readSign (s : List Char) : Bool × List Char :=
  match s with
  | c :: rest => if c = '-' then (true, rest) else if c = '+' then (false, rest) else (false, s)
  | [] => (false, s)

def readExponent (early : ReadError) (s : List Char) :
    Reading (Option (Bool × List Char) × List Char) :=
  match s with
  | c :: rest =>
    if c = 'e' ∨ c = 'E' then do
      let (negative, rest) := readSign rest
      let (ds, rest) ← readDigits early rest
      .ok (some (negative, ds), rest)
    else .ok (none, s)
  | [] => .ok (none, s)

/-- Reads a number that begins with a minus or a digit. -/
def read (early : ReadError) (s : List Char) : Reading (Numeral × List Char) := do
  let (negative, s) := match s with
    | c :: rest => if c = '-' then (true, rest) else (false, s)
    | [] => (false, s)
  let (whole, s) ← readWhole early s
  let (fraction, s) ← readFraction early s
  let (exponent, s) ← readExponent early s
  .ok (⟨negative, whole, fraction, exponent⟩, s)

/-- The number that decimal digits stand for. -/
def valueOf (ds : List Char) : Nat :=
  Nat.ofDigitChars 10 ds 0

/-- The integer that the numeral stands for. A negative zero is not an integer. -/
def integer? (n : Numeral) : Option Int :=
  if n.fraction.isSome ∨ n.exponent.isSome then none
  else
    let x := valueOf n.whole
    if n.negative then
      if 0 < x ∧ x ≤ 2 ^ 63 then some (-(x : Int)) else none
    else if x < 2 ^ 64 then some x else none

/-! ## The range of floating-point numbers -/

/-- Appends digits to a significand for as long as it fits in 64 bits, and gives the digits that
no longer fit. -/
def significand (start : Nat) : List Char → Nat × List Char
  | [] => (start, [])
  | c :: ds =>
    let next := 10 * start + valueOf [c]
    if next < 2 ^ 64 then significand next ds else (start, c :: ds)

/-- The numeral as a significand of 64 bits and a power of ten, without the digits that do not
fit. -/
def scaled (n : Numeral) : Nat × Int :=
  let (m, dropped) := significand 0 n.whole
  let fraction := n.fraction.getD []
  let (m, unused) := significand m fraction
  let written : Int :=
    match n.exponent with
    | none => 0
    | some (negative, ds) => if negative then -(valueOf ds : Int) else valueOf ds
  (m, dropped.length - (fraction.length - unused.length : Nat) + written)

/-- Whether the numeral stands for no integer and is beyond the greatest 64-bit float. -/
def overflows (n : Numeral) : Bool :=
  let (m, e) := n.scaled
  n.integer?.isNone && m != 0 && 0 ≤ e
    && (308 < e || (Float.ofNat m * Float.ofScientific 1 false e.toNat).isInf)

theorem overflows_of_integer? {n : Numeral} {x : Int} (h : n.integer? = some x) :
    n.overflows = false := by
  simp [overflows, h]

end Numeral

end BranchPrediction.Json
