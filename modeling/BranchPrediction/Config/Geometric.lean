import BranchPrediction.Bounds

/-!
# Geometric history lengths

History lengths between a least and a greatest one in geometric progression, rounded to whole
numbers and then raised where necessary so that each is above the one before it.
-/

namespace BranchPrediction

/-- The power of `a` to `n` by repeated squaring, from the lowest bit of `n` up, and the reciprocal
of the positive power where `n` is negative. -/
def powSquaring (a : Float) (n : Int32) : Float :=
  let m := n.toInt.natAbs
  let power := ((List.range (m.log2 + 1)).foldl
    (fun acc i => (if m.testBit i then acc.1 * acc.2 else acc.1, acc.2 * acc.2)) (1.0, a)).1
  if n < 0 then 1.0 / power else power

/-- The terms `least * r ^ i` for `i < count`, rounded to the nearest whole number, where `r`
makes the last of them `greatest`. A term that is not a number becomes 0. Exponents are integers of
32 bits, so they start again from the lowest one after `2 ^ 31` terms. -/
def roundedProgression (least greatest count : Nat) : List Nat :=
  let first := Float.ofNat least
  let ratio := (Float.ofNat greatest / first).pow (1.0 / Float.ofNat (count - 1))
  (List.range count).map fun i =>
    (first * powSquaring ratio (Int32.ofNat i)).round.toUInt64.toNat

/-- Raises each number above the one before it, starting above `previous`. -/
def raiseAbove (previous : Nat) : List Nat → List Nat
  | [] => []
  | x :: rest =>
    let y := if x ≤ previous then previous + 1 else x
    y :: raiseAbove y rest

/-- Raises each number above the one before it. -/
def raiseIncreasing : List Nat → List Nat
  | [] => []
  | x :: rest => x :: raiseAbove x rest

/-- Strictly increasing history lengths from `least` to `greatest`, `count` of them. -/
def geometricLengths (least greatest count : Nat) : List Nat :=
  if count ≤ 1 then List.replicate count least
  else raiseIncreasing (roundedProgression least greatest count)

/-- Fails if a number has to be raised above the greatest word. -/
def raiseAbove? (previous : Nat) : List Nat → Option (List Nat)
  | [] => some []
  | x :: rest => do
    let y ← if x ≤ previous then addWord? previous 1 else some x
    (raiseAbove? y rest).map (y :: ·)

/-- Fails as `raiseAbove?` does. -/
def raiseIncreasing? : List Nat → Option (List Nat)
  | [] => some []
  | x :: rest => (raiseAbove? x rest).map (x :: ·)

/-- Fails if there cannot be a list of so many lengths, or if a length has to be raised above the
greatest word. -/
def geometricLengths? (least greatest count : Nat) : Option (List Nat) :=
  if fitsTable count 8 then
    if count ≤ 1 then some (List.replicate count least)
    else raiseIncreasing? (roundedProgression least greatest count)
  else none

end BranchPrediction
