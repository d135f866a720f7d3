import BranchPrediction.Bounds

/-!
# History registers

A shift register of bits. Bit 0 is the newest; a push moves every bit up by one and drops the
oldest. A range of the register can be folded to a given width: it is cut into chunks of that
width, and the chunks are combined with exclusive or.
-/

namespace BranchPrediction

/-- Exclusive or of the `2 ^ levels` chunks of `width` bits of `x`: the upper half of the chunks
is combined with the lower half, and so on until one chunk is left. -/
def foldChunks (width : Nat) : (levels : Nat) → Nat → Nat
  | 0, x => x % 2 ^ width
  | levels + 1, x =>
    let half := width * 2 ^ levels
    foldChunks width levels ((x % 2 ^ half) ^^^ (x >>> half))

/-- How often a number of bits has to be halved to leave no more than `width`. -/
def halvings (width count : Nat) : Nat :=
  (count / width).log2 + 1

/-- A shift register, with the newest bit at index 0. -/
structure Register where
  length : Nat
  bits : BitVec length
  deriving DecidableEq, Repr

namespace Register

/-- A register of zeros. -/
def zero (length : Nat) : Register :=
  ⟨length, BitVec.zero length⟩

/-- The bit at index `k`, and `false` beyond the end. -/
def bit (r : Register) (k : Nat) : Bool :=
  r.bits.getLsbD k

def clear (r : Register) : Register :=
  zero r.length

/-- Moves every bit up by `n`, filling with zeros. -/
def shift (r : Register) (n : Nat) : Register :=
  ⟨r.length, r.bits <<< n⟩

/-- Makes `b` the newest bit. A register of length 0 has no room for it. -/
def push (r : Register) (b : Bool) : Register :=
  ⟨r.length, r.bits.shiftConcat b⟩

/-- Makes the low `n` bits of `x` the newest bits, bit 0 of `x` the newest of them. A register has
no room for more bits than it is long. -/
def pushBits (r : Register) (x n : Nat) : Register :=
  let n := min n r.length
  ⟨r.length, (r.bits <<< n) ||| BitVec.ofNat r.length (x % 2 ^ n)⟩

/-- The `count` bits from index `first` on, folded to `width` bits. -/
def foldRange (r : Register) (first count width : Nat) : Nat :=
  foldChunks width (halvings width count) (r.bits.extractLsb' first count).toNat

/-- The `count` newest bits, folded to `width` bits. -/
def fold (r : Register) (count width : Nat) : Nat :=
  r.foldRange 0 count width

/-- The bits from the oldest to the newest. -/
def render (r : Register) : String :=
  String.ofList ((List.range r.length).reverse.map fun k => if r.bit k then '1' else '0')

/-! ## Operations on arguments that may be out of range -/

/-- Fails if there cannot be so long a register. -/
def zero? (length : Nat) : Option Register :=
  if fitsHistory length then some (zero length) else none

/-- Fails on a shift by more than the length. -/
def shift? (r : Register) (n : Nat) : Option Register :=
  if n ≤ r.length then some (r.shift n) else none

/-- Fails if more than 64 bits would be stored. -/
def pushBits? (r : Register) (x n : Nat) : Option Register :=
  if min n r.length ≤ 64 then some (r.pushBits x n) else none

/-- The bits from index `first` to index `last`. Fails if the range is empty or leaves the
register. -/
def read? (r : Register) (first last : Nat) : Option (List Bool) :=
  if first ≤ last ∧ last < r.length then
    some ((List.range (last + 1 - first)).map fun k => r.bit (first + k))
  else none

/-- The bits from index `first` to index `last`, folded. Fails as `read?` does, or if the width
is 0 or does not leave room in a word of 64 bits. -/
def fold? (r : Register) (first last width : Nat) : Option Nat :=
  if 0 < width ∧ width < 64 ∧ first ≤ last ∧ last < r.length then
    some (r.foldRange first (last + 1 - first) width)
  else none

/-! ## What the operations do to the bits -/

/-- Registers of one length with the same bits are equal. -/
theorem eq_of_bit {r s : Register} (hl : r.length = s.length) (hb : ∀ k, r.bit k = s.bit k) :
    r = s := by
  obtain ⟨n, x⟩ := r
  obtain ⟨m, y⟩ := s
  cases hl
  exact congrArg (Register.mk n) (BitVec.eq_of_getLsbD_eq fun k _ => hb k)

@[simp] theorem length_zero (n : Nat) : (zero n).length = n := rfl

@[simp] theorem length_clear (r : Register) : r.clear.length = r.length := rfl

@[simp] theorem length_shift (r : Register) (n : Nat) : (r.shift n).length = r.length := rfl

@[simp] theorem length_push (r : Register) (b : Bool) : (r.push b).length = r.length := rfl

@[simp] theorem length_pushBits (r : Register) (x n : Nat) :
    (r.pushBits x n).length = r.length := rfl

@[simp] theorem bit_zero (n k : Nat) : (zero n).bit k = false := by
  simp [bit, zero]

theorem bit_of_length_le (r : Register) (k : Nat) (h : r.length ≤ k) : r.bit k = false :=
  BitVec.getLsbD_of_ge r.bits k h

theorem bit_shift (r : Register) (n k : Nat) :
    (r.shift n).bit k = (decide (k < r.length) && !decide (k < n) && r.bit (k - n)) := by
  simp [bit, shift]

theorem bit_push (r : Register) (b : Bool) (k : Nat) :
    (r.push b).bit k = (decide (k < r.length) && if k = 0 then b else r.bit (k - 1)) := by
  simp [bit, push, BitVec.getLsbD_shiftConcat]

theorem bit_pushBits (r : Register) (x n k : Nat) :
    (r.pushBits x n).bit k
      = (decide (k < r.length) && if k < n then x.testBit k else r.bit (k - n)) := by
  simp only [bit, pushBits, BitVec.getLsbD_or, BitVec.getLsbD_shiftLeft, BitVec.getLsbD_ofNat,
    Nat.testBit_mod_two_pow]
  by_cases hk : k < r.length
  · by_cases hn : k < n
    · have hm : k < min n r.length := by omega
      simp only [hk, hm, decide_true, Bool.not_true, Bool.false_and, Bool.false_or, Bool.true_and,
        if_pos hn]
    · have hm : min n r.length = n := by omega
      simp [hk, hn, hm]
  · simp [hk]

end Register

end BranchPrediction
