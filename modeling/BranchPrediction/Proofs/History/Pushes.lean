import BranchPrediction.History.Register

/-!
# Pushing several bits

`pushBits` moves a register once and puts a whole group of bits in. Taking one bit off the front of
the group (`pushBits_succ`) shows by induction that this is a push of each bit, the highest one
first (`pushBits_eq_pushEach`), so that two groups in a row are one (`lowBits_join`). Main
statement: `pushBits_pushes`.
-/

namespace BranchPrediction

/-- The low `n` bits of `x`, from bit `n - 1` down to bit 0. -/
def lowBits (x : Nat) : (n : Nat) → List Bool
  | 0 => []
  | n + 1 => x.testBit n :: lowBits x n

theorem lowBits_congr {x y n : Nat} (h : ∀ k < n, x.testBit k = y.testBit k) :
    lowBits x n = lowBits y n := by
  induction n with
  | zero => rfl
  | succ n ih => rw [lowBits, lowBits, h n (Nat.lt_succ_self n), ih fun k hk => h k (by omega)]

theorem lowBits_add (x a b : Nat) : lowBits x (a + b) = lowBits (x >>> b) a ++ lowBits x b := by
  induction a with
  | zero => rw [Nat.zero_add, lowBits, List.nil_append]
  | succ a ih =>
    rw [Nat.add_right_comm, lowBits, ih, lowBits, Nat.testBit_shiftRight, Nat.add_comm b a,
      List.cons_append]

theorem lowBits_join (u v a b : Nat) :
    lowBits (u % 2 ^ a * 2 ^ b + v % 2 ^ b) (a + b) = lowBits u a ++ lowBits v b := by
  have hbit (k : Nat) : (u % 2 ^ a * 2 ^ b + v % 2 ^ b).testBit k
      = if k < b then (v % 2 ^ b).testBit k else (u % 2 ^ a).testBit (k - b) := by
    rw [Nat.mul_comm]
    exact Nat.testBit_two_pow_mul_add _ (Nat.mod_lt _ (Nat.two_pow_pos b)) k
  rw [lowBits_add]
  congr 1
  · refine lowBits_congr fun k hk => ?_
    have hge : ¬ b + k < b := by omega
    rw [Nat.testBit_shiftRight, hbit, if_neg hge, Nat.add_sub_cancel_left,
      Nat.testBit_mod_two_pow, decide_eq_true hk, Bool.true_and]
  · refine lowBits_congr fun k hk => ?_
    rw [hbit, if_pos hk, Nat.testBit_mod_two_pow, decide_eq_true hk, Bool.true_and]

theorem join_lt_two_pow (u v a b : Nat) :
    u % 2 ^ a * 2 ^ b + v % 2 ^ b < 2 ^ (a + b) := by
  have hu : u % 2 ^ a + 1 ≤ 2 ^ a := Nat.mod_lt u (Nat.two_pow_pos a)
  calc u % 2 ^ a * 2 ^ b + v % 2 ^ b
      < u % 2 ^ a * 2 ^ b + 2 ^ b := Nat.add_lt_add_left (Nat.mod_lt v (Nat.two_pow_pos b)) _
    _ = (u % 2 ^ a + 1) * 2 ^ b := (Nat.succ_mul ..).symm
    _ ≤ 2 ^ a * 2 ^ b := Nat.mul_le_mul_right _ hu
    _ = 2 ^ (a + b) := (Nat.pow_add 2 a b).symm

namespace Register

def pushEach (r : Register) (bs : List Bool) : Register :=
  bs.foldl push r

@[simp] theorem length_pushEach (r : Register) (bs : List Bool) :
    (r.pushEach bs).length = r.length := by
  induction bs generalizing r with
  | nil => rfl
  | cons b bs ih => exact ih (r.push b)

theorem pushEach_append (r : Register) (bs cs : List Bool) :
    r.pushEach (bs ++ cs) = (r.pushEach bs).pushEach cs :=
  List.foldl_append

theorem pushBits_zero (r : Register) (x : Nat) : r.pushBits x 0 = r := by
  refine eq_of_bit rfl fun k => ?_
  rw [bit_pushBits, if_neg (Nat.not_lt_zero k), Nat.sub_zero]
  by_cases hk : k < r.length
  · simp [hk]
  · simp [r.bit_of_length_le k (Nat.not_lt.1 hk)]

/-- The highest bit of a group is pushed first, also where it is pushed out again. -/
theorem pushBits_succ (r : Register) (x n : Nat) :
    r.pushBits x (n + 1) = (r.push (x.testBit n)).pushBits x n := by
  refine eq_of_bit rfl fun k => ?_
  rw [bit_pushBits, bit_pushBits, bit_push, length_push]
  by_cases hk : k < r.length
  · rcases Nat.lt_trichotomy k n with hlt | rfl | hgt
    · simp [hk, hlt, Nat.lt_succ_of_lt hlt]
    · have hpos : 0 < r.length := by omega
      simp [hk, hpos]
    · have hn : ¬ k < n := by omega
      have hn' : ¬ k < n + 1 := by omega
      have hsub : k - n < r.length := by omega
      have hne : k - n ≠ 0 := by omega
      simp [hk, hn, hn', hsub, hne, Nat.sub_sub]
  · simp [hk]

theorem pushBits_eq_pushEach (r : Register) (x n : Nat) :
    r.pushBits x n = r.pushEach (lowBits x n) := by
  induction n generalizing r with
  | zero => exact r.pushBits_zero x
  | succ n ih => rw [pushBits_succ, ih]; rfl

theorem pushBits?_eq_some (r : Register) (x : Nat) {n : Nat} (hn : n ≤ 64) :
    r.pushBits? x n = some (r.pushEach (lowBits x n)) := by
  rw [pushBits?, if_pos (by omega), pushBits_eq_pushEach]

/-- A group of up to 64 bits is pushed as its bits are one by one, the highest one first, into a
register of any length, which it keeps. Two groups in a row that make up one word between them are
pushed as this word is. -/
theorem pushBits_pushes (r : Register) :
    (∀ x n, n ≤ 64 → ∃ s, r.pushBits? x n = some s ∧ s = r.pushEach (lowBits x n) ∧
      s.length = r.length) ∧
    ∀ u v a b, a + b ≤ 64 → u % 2 ^ a * 2 ^ b + v % 2 ^ b < 2 ^ 64 ∧
      ∃ s t, r.pushBits? u a = some s ∧ s.pushBits? v b = some t ∧
        r.pushBits? (u % 2 ^ a * 2 ^ b + v % 2 ^ b) (a + b) = some t := by
  constructor
  · intro x n hn
    exact ⟨_, r.pushBits?_eq_some x hn, rfl, r.length_pushEach _⟩
  · intro u v a b hab
    refine ⟨Nat.lt_of_lt_of_le (join_lt_two_pow u v a b) (Nat.pow_le_pow_right (by decide) hab),
      _, _, r.pushBits?_eq_some u (by omega), pushBits?_eq_some _ v (by omega), ?_⟩
    rw [r.pushBits?_eq_some _ hab, lowBits_join, pushEach_append]

/-- The group is longer than the register, and its two highest bits are pushed out again. -/
theorem pushBits_pushes_small :
    let r : Register := ⟨3, 0b101⟩
    (∃ s, r.pushBits? 0b10110 5 = some s ∧ s = r.pushEach [true, false, true, true, false] ∧
      s.length = 3) ∧
    ∃ s t, r.pushBits? 0b110 2 = some s ∧ s.pushBits? 0b110 3 = some t ∧
      r.pushBits? 0b10110 5 = some t := by
  intro r
  obtain ⟨hpush, hjoin⟩ := pushBits_pushes r
  obtain ⟨-, hgroups⟩ := hjoin 0b110 0b110 2 3 (by decide)
  exact ⟨hpush 0b10110 5 (by decide), hgroups⟩

end Register

end BranchPrediction
