import BranchPrediction.Bounds

/-!
# Saturating weights

A weight of `bits` bits is an integer of the two's complement range of that width. Adding to it
stops at either end of the range.
-/

namespace BranchPrediction

namespace Weight

/-- The least weight of `bits` bits. -/
def lowest (bits : Nat) : Int := -(2 ^ (bits - 1) : Nat)

/-- The greatest weight of `bits` bits. -/
def highest (bits : Nat) : Int := (2 ^ (bits - 1) : Nat) - 1

/-- The range of weights of `bits` bits. Fails if the width is not between one and eight bits. -/
def range? (bits : Nat) : Option (Int × Int) :=
  if 1 ≤ bits ∧ bits ≤ 8 then some (lowest bits, highest bits) else none

/-- The weight of `bits` bits nearest to `x`. -/
def saturate (bits : Nat) (x : Int) : Int :=
  max (lowest bits) (min (highest bits) x)

/-- Moves a weight by `delta` within the range of `bits` bits. -/
def add (bits : Nat) (w delta : Int) : Int :=
  saturate bits (w + delta)

/-- Fails as `range?` does, or if the sum before it is brought into range does not fit. -/
def add? (bits : Nat) (w delta : Int) : Option Int := do
  let _ ← range? bits
  let sum ← addInt32? w delta
  some (saturate bits sum)

theorem lowest_le_highest (bits : Nat) : lowest bits ≤ highest bits := by
  have := Nat.two_pow_pos (bits - 1)
  simp only [lowest, highest]
  omega

theorem lowest_le_add (bits : Nat) (w d : Int) : lowest bits ≤ add bits w d := by
  simp only [add, saturate]
  omega

theorem add_le_highest (bits : Nat) (w d : Int) : add bits w d ≤ highest bits := by
  have := lowest_le_highest bits
  simp only [add, saturate]
  omega

end Weight

end BranchPrediction
