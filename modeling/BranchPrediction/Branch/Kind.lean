/-!
# Kinds of control-flow instruction

An instruction is described by packed flag bits: five bits name its kind, and one more says
whether the branch was taken. Only six patterns of the kind bits are in use.
-/

namespace BranchPrediction

/-- The kinds of control-flow instruction. -/
inductive Kind where
  | directBranch
  | directJump
  | indirectJump
  | directCall
  | indirectCall
  | ret
  deriving DecidableEq, Repr

namespace Kind

def branchBit : UInt32 := 1
def jumpBit : UInt32 := 2
def callBit : UInt32 := 4
def returnBit : UInt32 := 8
def indirectBit : UInt32 := 16

/-- The bits that name a kind. -/
def mask : UInt32 := 31

def bits : Kind → UInt32
  | directBranch => branchBit
  | directJump => jumpBit
  | indirectJump => jumpBit ||| indirectBit
  | directCall => callBit
  | indirectCall => callBit ||| indirectBit
  | ret => returnBit ||| indirectBit

/-- The kind that the low bits name; bits outside `mask` are not looked at. -/
def ofBits? (x : UInt32) : Option Kind :=
  [directBranch, directJump, indirectJump, directCall, indirectCall, ret].find?
    fun k => k.bits == x &&& mask

/-- Only direct branches are conditional. -/
def isConditional : Kind → Bool
  | directBranch => true
  | _ => false

@[simp] theorem ofBits?_bits (k : Kind) : ofBits? k.bits = some k := by
  cases k <;> rfl

end Kind

end BranchPrediction
