import BranchPrediction.Json.Numeral
import BranchPrediction.Json.Quoted

/-!
# Passing over values

A value that nobody asked for is passed over. It has to be well formed, but numbers of any size
and surrogates without a partner are let through.
-/

namespace BranchPrediction.Json

mutual

/-- Passes over a value. The first argument bounds the depth of the recursion. -/
def skipValueWithin : Nat → List Char → Reading (List Char)
  | 0, _ => .error .endOfText
  | depth + 1, s =>
    match skipBlank s with
    | [] => .error .endOfText
    | c :: rest =>
      if c = '"' then skipQuoted rest
      else if c = '[' then skipElementsWithin depth true rest
      else if c = openBrace then skipMembersWithin depth true rest
      else if c = 'n' then literal ['u', 'l', 'l'] rest
      else if c = 't' then literal ['r', 'u', 'e'] rest
      else if c = 'f' then literal ['a', 'l', 's', 'e'] rest
      else if c = '-' || c.isDigit then
        (Numeral.read .malformed (c :: rest)).map Prod.snd
      else .error .malformed

/-- Passes over the elements of a list and its closing bracket. -/
def skipElementsWithin : Nat → Bool → List Char → Reading (List Char)
  | 0, _, _ => .error .endOfText
  | depth + 1, first, s => do
    match ← elementStart first s with
    | none => listEnd s
    | some s =>
      let s ← skipValueWithin depth s
      skipElementsWithin depth false s

/-- Passes over the members of an object and its closing brace. -/
def skipMembersWithin : Nat → Bool → List Char → Reading (List Char)
  | 0, _, _ => .error .endOfText
  | depth + 1, first, s => do
    let (more, s) ← memberStart first s
    if more then
      let s ← skipQuoted s
      let s ← colon s
      let s ← skipValueWithin depth s
      skipMembersWithin depth false s
    else .ok s

end

/-- Passes over a value. Every second level of recursion consumes a character. -/
def skipValue (s : List Char) : Reading (List Char) :=
  skipValueWithin (2 * s.length + 2) s

end BranchPrediction.Json
