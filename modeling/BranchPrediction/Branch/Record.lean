import BranchPrediction.Branch.Kind
import BranchPrediction.Outcome

/-!
# Branch records

One executed control-flow instruction: its address, its target, and its packed flags.
-/

namespace BranchPrediction

/-- Packed flags of a branch record. -/
structure Flags where
  bits : UInt32
  deriving DecidableEq, Repr

namespace Flags

/-- The bit that says that the branch was taken. -/
def takenBit : UInt32 := 32

def ofKind (kind : Kind) (outcome : Outcome) : Flags :=
  ⟨kind.bits ||| if outcome.toBool then takenBit else 0⟩

/-- Whether the branch bit is set, whatever kind the bits name together. -/
def isBranch (f : Flags) : Bool :=
  f.bits &&& Kind.branchBit != 0

def isTaken (f : Flags) : Bool :=
  f.bits &&& takenBit != 0

def kind? (f : Flags) : Option Kind :=
  Kind.ofBits? f.bits

@[simp] theorem kind?_ofKind (k : Kind) (o : Outcome) : (ofKind k o).kind? = some k := by
  cases k <;> cases o <;> rfl

@[simp] theorem isTaken_ofKind (k : Kind) (o : Outcome) : (ofKind k o).isTaken = o.toBool := by
  cases k <;> cases o <;> rfl

end Flags

/-- A record of one executed branch. -/
structure Record where
  pc : UInt64
  target : UInt64
  flags : Flags
  deriving DecidableEq, Repr

namespace Record

def ofKind (pc target : UInt64) (kind : Kind) (outcome : Outcome) : Record :=
  ⟨pc, target, .ofKind kind outcome⟩

def kind? (r : Record) : Option Kind :=
  r.flags.kind?

def outcome (r : Record) : Outcome :=
  .ofBool r.flags.isTaken

/-- Whether the branch bit is set. -/
def isBranch (r : Record) : Bool :=
  r.flags.isBranch

@[simp] theorem kind?_ofKind (pc target : UInt64) (k : Kind) (o : Outcome) :
    (ofKind pc target k o).kind? = some k := by
  simp [ofKind, kind?]

@[simp] theorem outcome_ofKind (pc target : UInt64) (k : Kind) (o : Outcome) :
    (ofKind pc target k o).outcome = o := by
  simp [ofKind, outcome]

end Record

end BranchPrediction
