/-!
# The pseudorandom generator

Four words of state are advanced by the xoshiro256++ step. A seed fills the state with the
successive 32-bit outputs of a permuted congruential generator, two to a word with the earlier
one in the low half.
-/

namespace BranchPrediction

/-- The four words of generator state. -/
structure Generator where
  s0 : UInt64
  s1 : UInt64
  s2 : UInt64
  s3 : UInt64
  deriving DecidableEq, Repr

namespace Generator

def rotateLeft (x : UInt64) (n : UInt64) : UInt64 :=
  (x <<< n) ||| (x >>> (64 - n))

/-- One step of the seeding sequence. -/
def seedStep (state : UInt64) : UInt64 :=
  state * 6364136223846793005 + 11634580027462260723

/-- The 32-bit output for a state of the seeding sequence: its high bits folded together and
rotated right by its top five bits. -/
def seedOutput (state : UInt64) : UInt32 :=
  let x := (((state >>> 18) ^^^ state) >>> 27).toUInt32
  let r := (state >>> 59).toUInt32
  (x >>> r) ||| (x <<< ((32 - r) % 32))

/-- The word made of the outputs after one and after two steps. -/
def seedWord (state : UInt64) : UInt64 :=
  (seedOutput (seedStep state)).toUInt64
    ||| ((seedOutput (seedStep (seedStep state))).toUInt64 <<< 32)

def ofSeed (seed : UInt64) : Generator :=
  let skip (s : UInt64) := seedStep (seedStep s)
  ⟨seedWord seed, seedWord (skip seed), seedWord (skip (skip seed)),
    seedWord (skip (skip (skip seed)))⟩

/-- The number that the next draw gives. -/
def output (g : Generator) : UInt64 :=
  rotateLeft (g.s0 + g.s3) 23 + g.s0

/-- The state after a draw. -/
def advance (g : Generator) : Generator :=
  let s2 := g.s2 ^^^ g.s0
  let s3 := g.s3 ^^^ g.s1
  let s1 := g.s1 ^^^ s2
  let s0 := g.s0 ^^^ s3
  ⟨s0, s1, s2 ^^^ (g.s1 <<< 17), rotateLeft s3 45⟩

end Generator

end BranchPrediction
