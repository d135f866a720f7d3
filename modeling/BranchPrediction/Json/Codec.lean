import BranchPrediction.Json.Skip

/-!
# Typed values

A codec writes the values of a type as compact JSON and reads them back. Records are written as
objects with their fields in declaration order. They are read from objects with the fields in any
order, and from lists of the fields in declaration order; fields that are left out keep the values
of a blank record, and members of other names are passed over.
-/

namespace BranchPrediction.Json

/-- A written form of the values of a type, and a reader of it. -/
structure Codec (α : Type) where
  write : α → List Char
  read : List Char → Reading (α × List Char)

/-- The error for a text that begins with a value of another kind than was asked for: an error
inside a scalar value is met before its kind is judged. -/
def mismatch (s : List Char) : ReadError :=
  let judge {α : Type} : Reading α → ReadError
    | .ok _ => .wrongData
    | .error e => e
  match s with
  | [] => .endOfText
  | c :: rest =>
    if c = '"' then judge (readQuoted rest)
    else if c = '[' ∨ c = openBrace then .wrongData
    else if c = 'n' then judge (literal ['u', 'l', 'l'] rest)
    else if c = 't' then judge (literal ['r', 'u', 'e'] rest)
    else if c = 'f' then judge (literal ['a', 'l', 's', 'e'] rest)
    else if c = '-' || c.isDigit then
      judge (do
        let (n, rest) ← Numeral.read .endOfText (c :: rest)
        if n.overflows then .error .malformed else .ok rest)
    else .malformed

/-! ## Integers -/

def writeInt (n : Int) : List Char :=
  if n < 0 then '-' :: Nat.toDigits 10 n.natAbs else Nat.toDigits 10 n.natAbs

def readInt (least greatest : Int) (s : List Char) : Reading (Int × List Char) :=
  match skipBlank s with
  | [] => .error .endOfText
  | c :: rest =>
    if c = '-' || c.isDigit then do
      let (n, rest) ← Numeral.read .endOfText (c :: rest)
      if n.overflows then .error .malformed
      else
        match n.integer? with
        | none => .error .wrongData
        | some x => if least ≤ x ∧ x ≤ greatest then .ok (x, rest) else .error .wrongData
    else .error (mismatch (c :: rest))

/-- Integers between two bounds. -/
def Codec.int (least greatest : Int) : Codec Int where
  write := writeInt
  read := readInt least greatest

/-- A codec for another presentation of the same values. -/
def Codec.map {α β : Type} (c : Codec α) (ofBase : α → β) (toBase : β → α) : Codec β where
  write b := c.write (toBase b)
  read s := do
    let (a, rest) ← c.read s
    .ok (ofBase a, rest)

/-- Natural numbers of up to `bits` bits. -/
def Codec.nat (bits : Nat) : Codec Nat :=
  (Codec.int 0 (2 ^ bits - 1 : Nat)).map Int.toNat Int.ofNat

/-- Two's complement integers of 32 bits. -/
def Codec.int32 : Codec Int :=
  Codec.int (-2 ^ 31) (2 ^ 31 - 1)

/-- Words of 64 bits. -/
def Codec.word : Codec UInt64 :=
  (Codec.nat 64).map UInt64.ofNat UInt64.toNat

/-! ## Optional values and lists -/

def writeOption {α : Type} (c : Codec α) : Option α → List Char
  | none => ['n', 'u', 'l', 'l']
  | some a => c.write a

def readOption {α : Type} (c : Codec α) (s : List Char) : Reading (Option α × List Char) :=
  match skipBlank s with
  | [] => .error .endOfText
  | d :: rest =>
    if d = 'n' then do
      let rest ← literal ['u', 'l', 'l'] rest
      .ok (none, rest)
    else do
      let (a, rest) ← c.read (d :: rest)
      .ok (some a, rest)

/-- Values of a type, and `null` for none. -/
def Codec.option {α : Type} (c : Codec α) : Codec (Option α) where
  write := writeOption c
  read := readOption c

/-- Texts one after the other, separated by commas. -/
def commaSeparated : List (List Char) → List Char
  | [] => []
  | [t] => t
  | t :: ts => t ++ ',' :: commaSeparated ts

/-- Reads elements up to the closing bracket, `count` of them at most. -/
def readElements {α : Type} (c : Codec α) :
    (count : Nat) → (first : Bool) → List Char → Reading (List α × List Char)
  | 0, _, _ => .error .endOfText
  | count + 1, first, s => do
    match ← elementStart first s with
    | none =>
      let rest ← listEnd s
      .ok ([], rest)
    | some s =>
      let (a, s) ← c.read s
      let (as, rest) ← readElements c count false s
      .ok (a :: as, rest)

def readList {α : Type} (c : Codec α) (s : List Char) : Reading (List α × List Char) :=
  match skipBlank s with
  | [] => .error .endOfText
  | d :: rest =>
    if d = '[' then readElements c (rest.length + 1) true rest
    else .error (mismatch (d :: rest))

def Codec.list {α : Type} (c : Codec α) : Codec (List α) where
  write as := '[' :: commaSeparated (as.map c.write) ++ [']']
  read := readList c

/-! ## Records -/

/-- A field of a record: its name, how its value is written, and how a value that is read is put
into a record. -/
structure Field (σ : Type) where
  name : String
  write : σ → List Char
  read : σ → List Char → Reading (σ × List Char)

/-- A field whose values have a codec. -/
def Field.of {σ α : Type} (name : String) (c : Codec α) (get : σ → α) (set : σ → α → σ) :
    Field σ where
  name := name
  write x := c.write (get x)
  read x s := do
    let (a, rest) ← c.read s
    .ok (set x a, rest)

/-- The fields of a record in declaration order, the record that a reader starts with, and the
names of the fields that have to be given. -/
structure Layout (σ : Type) where
  blank : σ
  fields : List (Field σ)
  required : List String := []

namespace Layout

variable {σ : Type}

def writeField (x : σ) (f : Field σ) : List Char :=
  '"' :: f.name.toList ++ '"' :: ':' :: f.write x

def write (l : Layout σ) (x : σ) : List Char :=
  openBrace :: commaSeparated (l.fields.map (writeField x)) ++ [closeBrace]

/-- Reads members up to the closing brace, `count` of them at most. No field may be given twice,
which shows at the second name. -/
def readMembers (l : Layout σ) : (count : Nat) → (first : Bool) → (seen : List String) → σ →
    List Char → Reading (σ × List Char)
  | 0, _, _, _, _ => .error .endOfText
  | count + 1, first, seen, x, s => do
    let (more, s) ← memberStart first s
    if more then
      let (key, s) ← readQuoted s
      match l.fields.find? fun f => f.name.toList == key with
      | some f =>
        if f.name ∈ seen then .error .wrongData
        else
          let s ← colon s
          let (x, s) ← f.read x s
          l.readMembers count false (f.name :: seen) x s
      | none =>
        let s ← colon s
        let s ← skipValue s
        l.readMembers count false seen x s
    else if l.required.all (· ∈ seen) then .ok (x, s)
    else .error .wrongData

/-- Reads the values of the given fields up to the closing bracket. The values that are left out
at the end must not be required. -/
def readValues (l : Layout σ) : List (Field σ) → (first : Bool) → σ → List Char →
    Reading (σ × List Char)
  | [], _, x, s => do
    let rest ← listEnd s
    .ok (x, rest)
  | f :: fs, first, x, s => do
    match ← elementStart first s with
    | none =>
      if (f :: fs).any (·.name ∈ l.required) then .error .wrongData
      else
        let rest ← listEnd s
        .ok (x, rest)
    | some s =>
      let (x, s) ← f.read x s
      l.readValues fs false x s

def read (l : Layout σ) (s : List Char) : Reading (σ × List Char) :=
  match skipBlank s with
  | [] => .error .endOfText
  | c :: rest =>
    if c = openBrace then l.readMembers (rest.length + 1) true [] l.blank rest
    else if c = '[' then l.readValues l.fields true l.blank rest
    else .error (mismatch (c :: rest))

def codec (l : Layout σ) : Codec σ where
  write := l.write
  read := l.read

end Layout

/-! ## Names -/

/-- Reads the name of a member. Only a string is a name, whatever else the text begins with. -/
def readName (s : List Char) : Reading (List Char × List Char) :=
  match skipBlank s with
  | [] => .error .endOfText
  | c :: rest => if c = '"' then readQuoted rest else .error .malformed

/-- Reads `null`. -/
def readNull (s : List Char) : Reading (List Char) :=
  match skipBlank s with
  | [] => .error .endOfText
  | c :: rest =>
    if c = 'n' then literal ['u', 'l', 'l'] rest else .error (mismatch (c :: rest))

/-- Reads one of several named values, written as its name or as an object whose only member has
that name and is `null`. -/
def readNamed {α : Type} (ofName? : List Char → Option α) (s : List Char) :
    Reading (α × List Char) :=
  match skipBlank s with
  | [] => .error .endOfText
  | c :: rest =>
    if c = '"' then do
      let (name, rest) ← readQuoted rest
      match ofName? name with
      | none => .error .wrongData
      | some a => .ok (a, rest)
    else if c = openBrace then do
      let (name, rest) ← readName rest
      match ofName? name with
      | none => .error .wrongData
      | some a =>
        let rest ← colon rest
        let rest ← readNull rest
        match skipBlank rest with
        | [] => .error .endOfText
        | d :: rest => if d = closeBrace then .ok (a, rest) else .error .malformed
    else .error .malformed

/-- Values with names. -/
def Codec.named {α : Type} (name : α → String) (ofName? : List Char → Option α) : Codec α where
  write a := '"' :: (name a).toList ++ ['"']
  read := readNamed ofName?

/-! ## Whole texts -/

def Codec.toText {α : Type} (c : Codec α) (a : α) : String :=
  String.ofList (c.write a)

/-- Reads a text that holds one value and nothing else but blanks. -/
def Codec.ofText {α : Type} (c : Codec α) (s : String) : Reading α := do
  let (a, rest) ← c.read s.toList
  if skipBlank rest = [] then .ok a else .error .malformed

end BranchPrediction.Json
