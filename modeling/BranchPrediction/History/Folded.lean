import BranchPrediction.History.Register

/-!
# Folded histories

The newest `span` bits of a history register, folded to `width` bits and kept up to date without
reading them all. A push moves every bit of the history up by one place, which rotates the fold;
then the newest bit comes in at place 0, and the bit that left the span, which is now at index
`span` of the register, goes out at place `span % width`.
-/

namespace BranchPrediction

/-- The running fold of the newest `span` bits of a history. -/
structure Folded where
  width : Nat
  span : Nat
  bits : BitVec width
  deriving DecidableEq, Repr

namespace Folded

/-- The fold of a history of zeros. -/
def zero (width span : Nat) : Folded :=
  ⟨width, span, BitVec.zero width⟩

/-- Fails if the width is 0 or does not leave room in a word of 64 bits, or if nothing is
spanned. -/
def zero? (width span : Nat) : Option Folded :=
  if 0 < width ∧ width < 64 ∧ 0 < span then some (zero width span) else none

def value (f : Folded) : Nat :=
  f.bits.toNat

def clear (f : Folded) : Folded :=
  zero f.width f.span

/-- The word of `width` bits with `b` at place `i` and zeros elsewhere. -/
def place (width i : Nat) (b : Bool) : BitVec width :=
  if b then BitVec.twoPow width i else BitVec.zero width

/-- Follows one push onto the register. -/
def update (f : Folded) (r : Register) : Folded :=
  { f with
    bits := f.bits.rotateLeft 1 ^^^ place f.width 0 (r.bit 0)
      ^^^ place f.width (f.span % f.width) (r.bit f.span) }

/-- Fails if there is no bit to rotate, or if the register is too short to show the bit that left
the span. -/
def update? (f : Folded) (r : Register) : Option Folded :=
  if 0 < f.width ∧ f.span < r.length then some (f.update r) else none

/-- The value as a word. Fails if there is no bit, or if there are more than a word holds. -/
def value? (f : Folded) : Option Nat :=
  if 0 < f.width ∧ f.width ≤ wordBits then some f.value else none

/-- The bits in index order. -/
def render (f : Folded) : String :=
  String.ofList ((List.range f.width).map fun k => if f.bits.getLsbD k then '1' else '0')

@[simp] theorem width_update (f : Folded) (r : Register) : (f.update r).width = f.width := rfl

@[simp] theorem span_update (f : Folded) (r : Register) : (f.update r).span = f.span := rfl

theorem getLsbD_place (width i : Nat) (b : Bool) (k : Nat) :
    (place width i b).getLsbD k = (b && decide (i < width) && decide (i = k)) := by
  cases b <;> simp [place, BitVec.getLsbD_twoPow]

theorem value_lt (f : Folded) : f.value < 2 ^ f.width :=
  f.bits.isLt

end Folded

end BranchPrediction
