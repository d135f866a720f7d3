import BranchPrediction.Json.Lexeme

/-!
# Quoted texts

The inside of a JSON string, from after the opening quote to the closing one. A strict reader
wants surrogate escapes in pairs, since only a pair names a character. A lax reader, for strings
that are passed over, wants only four hexadecimal digits after each `\u`.
-/

namespace BranchPrediction.Json

/-- What the next character of a string means. -/
inductive QuotedState where
  | plain
  /-- after a backslash -/
  | escaped
  /-- `left` more digits of a `\u` escape that follows the leading surrogate `lead`, if any -/
  | digits (left value : Nat) (lead : Option Nat)
  /-- after the leading surrogate `lead`: a backslash has to follow -/
  | leading (lead : Nat)
  /-- after the leading surrogate `lead` and a backslash: a `u` has to follow -/
  | leadingEscaped (lead : Nat)

/-- The character that a one-letter escape stands for. -/
def simpleEscape? (c : Char) : Option Char :=
  if c = '"' ∨ c = '\\' ∨ c = '/' then some c
  else if c = 'b' then some '\x08'
  else if c = 'f' then some '\x0c'
  else if c = 'n' then some '\n'
  else if c = 'r' then some '\r'
  else if c = 't' then some '\t'
  else none

def hexDigit? (c : Char) : Option Nat :=
  if '0' ≤ c ∧ c ≤ '9' then some (c.toNat - '0'.toNat)
  else if 'a' ≤ c ∧ c ≤ 'f' then some (c.toNat - 'a'.toNat + 10)
  else if 'A' ≤ c ∧ c ≤ 'F' then some (c.toNat - 'A'.toNat + 10)
  else none

def isLeading (unit : Nat) : Bool :=
  0xD800 ≤ unit && unit ≤ 0xDBFF

def isTrailing (unit : Nat) : Bool :=
  0xDC00 ≤ unit && unit ≤ 0xDFFF

/-- The character named by a pair of surrogates. -/
def pairedChar (lead trail : Nat) : Char :=
  Char.ofNat ((lead - 0xD800) * 0x400 + (trail - 0xDC00) + 0x10000)

/-- Whether at least `n` bytes of text are left. -/
def hasBytes : Nat → List Char → Bool
  | 0, _ => true
  | _ + 1, [] => false
  | n + 1, c :: s => hasBytes (n + 1 - c.utf8Size) s

/-- Puts a character in front of a reading. -/
def consReading (c : Char) : Reading (List Char × List Char) → Reading (List Char × List Char)
  | .ok (cs, rest) => .ok (c :: cs, rest)
  | .error e => .error e

/-- Reads on from a state of the string. A `\u` with fewer than four bytes after it is a text that
ended early. -/
def readQuotedFrom (strict : Bool) : QuotedState → List Char → Reading (List Char × List Char)
  | _, [] => .error .endOfText
  | .plain, c :: s =>
    if c = '"' then .ok ([], s)
    else if c = '\\' then readQuotedFrom strict .escaped s
    else if c.toNat < 0x20 then .error .malformed
    else consReading c (readQuotedFrom strict .plain s)
  | .escaped, c :: s =>
    if c = 'u' then
      if hasBytes 4 s then readQuotedFrom strict (.digits 4 0 none) s else .error .endOfText
    else
      match simpleEscape? c with
      | some d => consReading d (readQuotedFrom strict .plain s)
      | none => .error .malformed
  | .digits left value lead, c :: s =>
    match hexDigit? c with
    | none => .error .malformed
    | some d =>
      let unit := 16 * value + d
      if 1 < left then readQuotedFrom strict (.digits (left - 1) unit lead) s
      else if !strict then readQuotedFrom strict .plain s
      else
        match lead with
        | some l =>
          if isTrailing unit then
            consReading (pairedChar l unit) (readQuotedFrom strict .plain s)
          else .error .malformed
        | none =>
          if isTrailing unit then .error .malformed
          else if isLeading unit then readQuotedFrom strict (.leading unit) s
          else consReading (Char.ofNat unit) (readQuotedFrom strict .plain s)
  | .leading l, c :: s =>
    if c = '\\' then readQuotedFrom strict (.leadingEscaped l) s else .error .malformed
  | .leadingEscaped l, c :: s =>
    if c = 'u' then
      if hasBytes 4 s then readQuotedFrom strict (.digits 4 0 (some l)) s
      else .error .endOfText
    else .error .malformed

/-- Reads a string after its opening quote. -/
def readQuoted (s : List Char) : Reading (List Char × List Char) :=
  readQuotedFrom true .plain s

/-- Passes over a string after its opening quote. -/
def skipQuoted (s : List Char) : Reading (List Char) :=
  (readQuotedFrom false .plain s).map Prod.snd

end BranchPrediction.Json
