import BranchPrediction.History.Folded
import BranchPrediction.Config.Capacity
import BranchPrediction.Config.Validation
import BranchPrediction.Table.Entry

/-!
# Tagged tables

A table of tagged entries. An address and the newest outcomes are hashed to an index and to a
tag; the outcomes come in through folded histories of the width of the index, of the tag, and of
one bit less than the tag. The path history may come into the index too.
-/

namespace BranchPrediction

/-- A tagged table with its folded histories. -/
structure TaggedTable where
  config : TableConfig
  entries : Array Entry
  indexFold : Folded
  tagFold : Folded
  shortTagFold : Folded
  usesPath : Bool
  deriving DecidableEq, Repr

namespace TaggedTable

def ofConfig (c : TableConfig) (usesPath : Bool) : TaggedTable where
  config := c
  entries := Array.replicate c.size (.fresh c)
  indexFold := .zero c.size.log2 c.historyLength
  tagFold := .zero c.tagBits c.historyLength
  shortTagFold := .zero (c.tagBits - 1) c.historyLength
  usesPath := usesPath

/-- Fails if a fold or a counter has no valid width, or if there cannot be so large a table. -/
def ofConfig? (c : TableConfig) (usesPath : Bool) : Option TaggedTable := do
  let _ ← Folded.zero? c.size.log2 c.historyLength
  let _ ← Folded.zero? c.tagBits c.historyLength
  let _ ← Folded.zero? (c.tagBits - 1) c.historyLength
  let _ ← Counter.ofConfig? c.counter
  let _ ← Counter.ofConfig? ⟨c.usefulBits, none⟩
  if c.fits then some (ofConfig c usesPath) else none

/-- The number of bits of an index. -/
def indexBits (t : TaggedTable) : Nat :=
  t.config.size.log2

/-- The mask that brings a number into the range of indices. -/
def mask (t : TaggedTable) : Nat :=
  t.config.size - 1

/-- Whether the size is one for which there is a mask. -/
def hasMask (t : TaggedTable) : Bool :=
  isPowerOfTwo t.config.size

/-! ## Hashes -/

/-- The path history, folded to the width of an index. -/
def pathHash (t : TaggedTable) (path : Option Register) : Nat :=
  match path with
  | some r => if t.usesPath then r.fold r.length t.indexBits else 0
  | none => 0

def index (t : TaggedTable) (pc : UInt64) (path : Option Register) : Nat :=
  (pc.toNat ^^^ (pc.toNat >>> t.indexBits) ^^^ t.indexFold.value ^^^ t.pathHash path) &&& t.mask

/-- The tag of a branch. Tags are kept in words of 16 bits. -/
def tag (t : TaggedTable) (pc : UInt64) : Nat :=
  ((pc.toNat >>> 2) ^^^ (pc.toNat >>> (2 + t.config.tagBits)) ^^^ t.tagFold.value
    ^^^ (t.shortTagFold.value <<< 1)) % 2 ^ min t.config.tagBits 16

/-- Fails if the path history cannot be folded to the width of an index. -/
def pathHash? (t : TaggedTable) (path : Option Register) : Option Nat :=
  match path with
  | some r =>
    if t.usesPath && r.length != 0 then r.fold? 0 (r.length - 1) t.indexBits else some 0
  | none => some 0

/-- Fails if there is no mask, no value of the fold or no hash of the path, or if the size takes
more bits than an address has. -/
def index? (t : TaggedTable) (pc : UInt64) (path : Option Register) : Option Nat :=
  if t.hasMask ∧ t.indexBits < wordBits then do
    let _ ← t.indexFold.value?
    let _ ← t.pathHash? path
    some (t.index pc path)
  else none

/-- Fails if there is no value of a fold, or if the tag is too wide to be cut out of an
address. -/
def tag? (t : TaggedTable) (pc : UInt64) : Option Nat :=
  if 2 + t.config.tagBits < wordBits then do
    let _ ← t.tagFold.value?
    let _ ← t.shortTagFold.value?
    some (t.tag pc)
  else none

/-! ## Entries -/

/-- The entry at an index, taken modulo the size. -/
def entry (t : TaggedTable) (i : Nat) : Entry :=
  t.entries[i &&& t.mask]?.getD (.fresh t.config)

def modify (t : TaggedTable) (i : Nat) (f : Entry → Entry) : TaggedTable :=
  { t with entries := t.entries.modify (i &&& t.mask) f }

/-- Fails if there is no mask, or no entry at the index. -/
def entry? (t : TaggedTable) (i : Nat) : Option Entry :=
  if t.hasMask then t.entries[i &&& t.mask]? else none

/-- Fails as `entry?` does. -/
def modify? (t : TaggedTable) (i : Nat) (f : Entry → Entry) : Option TaggedTable :=
  t.entry? i |>.map fun _ => t.modify i f

/-- Takes all usefulness away. -/
def clearUseful (t : TaggedTable) : TaggedTable :=
  { t with entries := t.entries.map Entry.clearUseful }

def validCount (t : TaggedTable) : Nat :=
  t.entries.countP Entry.isValid

def usefulCount (t : TaggedTable) : Nat :=
  t.entries.countP fun e => !e.isReplaceable

/-- How many of a hundred entries are valid. -/
def utilization (t : TaggedTable) : Float :=
  Float.ofNat t.validCount / Float.ofNat t.entries.size * 100.0

/-! ## Histories -/

/-- Follows one push onto the global history. -/
def follow (t : TaggedTable) (global : Register) : TaggedTable :=
  { t with
    indexFold := t.indexFold.update global
    tagFold := t.tagFold.update global
    shortTagFold := t.shortTagFold.update global }

/-- Fails if a fold cannot follow. -/
def follow? (t : TaggedTable) (global : Register) : Option TaggedTable := do
  let indexFold ← t.indexFold.update? global
  let tagFold ← t.tagFold.update? global
  let shortTagFold ← t.shortTagFold.update? global
  some { t with indexFold, tagFold, shortTagFold }

end TaggedTable

end BranchPrediction
