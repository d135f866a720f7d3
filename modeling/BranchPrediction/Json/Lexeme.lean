/-!
# Lexemes of JSON texts

Readers go over a list of characters once, from left to right, and give the value they read with
the characters that follow it. The first problem that they meet ends the reading, and it is one
of three kinds.
-/

namespace BranchPrediction.Json

/-- Why a text could not be read. -/
inductive ReadError where
  /-- the text ended early -/
  | endOfText
  /-- no JSON text begins like this -/
  | malformed
  /-- the text is JSON so far, but not of the kind of value that was asked for -/
  | wrongData
  deriving DecidableEq, Repr

/-- The outcome of reading from the front of a text: the rest of the text, with the value read
before it if there is one. -/
abbrev Reading := Except ReadError

def isBlank (c : Char) : Bool :=
  c == ' ' || c == '\n' || c == '\t' || c == '\r'

def skipBlank (s : List Char) : List Char :=
  s.dropWhile isBlank

/-- Reads exactly the given characters. -/
def literal : List Char → List Char → Reading (List Char)
  | [], s => .ok s
  | _ :: _, [] => .error .endOfText
  | e :: es, c :: s => if c = e then literal es s else .error .malformed

def openBrace : Char := '\x7b'

def closeBrace : Char := '\x7d'

/-- The place where an element of a list may begin: `none` at the closing bracket, and otherwise
the text from the element on. Elements after the first are preceded by a comma. -/
def elementStart (first : Bool) (s : List Char) : Reading (Option (List Char)) :=
  match skipBlank s with
  | [] => .error .endOfText
  | c :: rest =>
    if c = ']' then .ok none
    else if first then .ok (some (c :: rest))
    else if c = ',' then
      match skipBlank rest with
      | [] => .error .endOfText
      | d :: rest => if d = ']' then .error .malformed else .ok (some (d :: rest))
    else .error .malformed

/-- The end of a list all of whose elements have been read. -/
def listEnd (s : List Char) : Reading (List Char) :=
  match skipBlank s with
  | [] => .error .endOfText
  | c :: rest => if c = ']' then .ok rest else .error .malformed

/-- The place where a member of an object may begin: `true` with the text after the quote that
opens the name, or `false` with the text after the closing brace. Members after the first are
preceded by a comma. -/
def memberStart (first : Bool) (s : List Char) : Reading (Bool × List Char) :=
  match skipBlank s with
  | [] => .error .endOfText
  | c :: rest =>
    if c = closeBrace then .ok (false, rest)
    else if first then
      if c = '"' then .ok (true, rest) else .error .malformed
    else if c = ',' then
      match skipBlank rest with
      | [] => .error .endOfText
      | d :: rest => if d = '"' then .ok (true, rest) else .error .malformed
    else .error .malformed

/-- The colon between the name and the value of a member. -/
def colon (s : List Char) : Reading (List Char) :=
  match skipBlank s with
  | [] => .error .endOfText
  | c :: rest => if c = ':' then .ok rest else .error .malformed

end BranchPrediction.Json
