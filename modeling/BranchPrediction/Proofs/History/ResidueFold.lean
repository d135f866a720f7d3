import Mathlib.Data.Nat.ModEq
import BranchPrediction.History.Folded

/-!
# The fold from scratch

`residueFold bits count width` puts each of the first `count` bits in at its place modulo `width`.
Bit `j` of it is `residueBit`, the exclusive or of the bits whose places are `j` modulo `width`.

`foldRange`, which halves the range until one chunk is left, and the running fold, which rotates
with each push, are both shown to be this fold.
-/

namespace BranchPrediction

def parity (p : Nat → Bool) : Nat → Bool
  | 0 => false
  | n + 1 => parity p n ^^ p n

/-- The exclusive or of the first `count` bits whose places are `j` modulo `width`. -/
def residueBit (bits : Nat → Bool) (count width j : Nat) : Bool :=
  parity (fun k => decide (k % width = j) && bits k) count

/-- Each of the first `count` bits put in at its place modulo `width`. -/
def residueFold (bits : Nat → Bool) (count width : Nat) : Nat :=
  match count with
  | 0 => 0
  | n + 1 => residueFold bits n width ^^^ if bits n then 2 ^ (n % width) else 0

theorem parity_congr {p q : Nat → Bool} {n : Nat} (h : ∀ k < n, p k = q k) :
    parity p n = parity q n := by
  induction n with
  | zero => rfl
  | succ n ih =>
    simp only [parity]
    rw [ih fun k hk => h k (by omega), h n (by omega)]

theorem parity_xor (p q : Nat → Bool) (n : Nat) :
    parity (fun k => p k ^^ q k) n = (parity p n ^^ parity q n) := by
  induction n with
  | zero => rfl
  | succ n ih =>
    simp only [parity, ih, Bool.xor_assoc, Bool.xor_left_comm (parity q n)]

theorem parity_add (p : Nat → Bool) (m n : Nat) :
    parity p (m + n) = (parity p m ^^ parity (fun k => p (m + k)) n) := by
  induction n with
  | zero => simp [parity]
  | succ n ih =>
    rw [← Nat.add_assoc]
    simp only [parity, ih, Bool.xor_assoc]

theorem parity_false {p : Nat → Bool} {n : Nat} (h : ∀ k < n, p k = false) :
    parity p n = false := by
  induction n with
  | zero => rfl
  | succ n ih =>
    simp only [parity]
    rw [ih fun k hk => h k (by omega), h n (by omega)]
    rfl

theorem parity_single (b : Nat → Bool) (j n : Nat) :
    parity (fun k => decide (k = j) && b k) n = (decide (j < n) && b j) := by
  induction n with
  | zero => rfl
  | succ n ih =>
    simp only [parity, ih]
    rcases Nat.lt_trichotomy n j with h | h | h
    · simp [show ¬ j < n by omega, show ¬ j < n + 1 by omega, show n ≠ j by omega]
    · subst h; simp
    · simp [h, show j < n + 1 by omega, show n ≠ j by omega]

theorem residueBit_congr {p q : Nat → Bool} {count width j : Nat} (h : ∀ k < count, p k = q k) :
    residueBit p count width j = residueBit q count width j :=
  parity_congr fun k hk => by rw [h k hk]

theorem testBit_residueFold (bits : Nat → Bool) (count width j : Nat) :
    (residueFold bits count width).testBit j = residueBit bits count width j := by
  induction count with
  | zero => simp [residueFold, residueBit, parity]
  | succ n ih =>
    simp only [residueFold, residueBit, parity, Nat.testBit_xor, ih]
    congr 1
    cases bits n with
    | false => simp
    | true => simp [Nat.testBit_two_pow]

theorem residueFold_congr {p q : Nat → Bool} {count : Nat} (width : Nat)
    (h : ∀ k < count, p k = q k) : residueFold p count width = residueFold q count width :=
  Nat.eq_of_testBit_eq fun j => by
    rw [testBit_residueFold, testBit_residueFold, residueBit_congr h]

theorem residueBit_of_le {bits : Nat → Bool} {count width j : Nat} (hw : 0 < width)
    (hj : width ≤ j) : residueBit bits count width j = false :=
  parity_false fun k _ => by
    have := Nat.mod_lt k hw
    simp [show k % width ≠ j by omega]

theorem testBit_foldChunks (width levels x j : Nat)
    (hx : x < 2 ^ (width * 2 ^ levels)) :
    (foldChunks width levels x).testBit j
      = residueBit x.testBit (width * 2 ^ levels) width j := by
  induction levels generalizing x with
  | zero =>
    rw [Nat.pow_zero, Nat.mul_one, foldChunks, Nat.testBit_mod_two_pow, residueBit,
      ← parity_single x.testBit]
    exact parity_congr fun k hk => by rw [Nat.mod_eq_of_lt hk]
  | succ levels ih =>
    have hdouble : width * 2 ^ (levels + 1) = width * 2 ^ levels + width * 2 ^ levels := by
      rw [Nat.pow_succ, ← Nat.mul_assoc, Nat.mul_two]
    rw [hdouble] at hx ⊢
    have hmod : ∀ k, (width * 2 ^ levels + k) % width = k % width :=
      fun k => Nat.mul_add_mod width _ k
    simp only [foldChunks]
    generalize width * 2 ^ levels = half at hx hmod ih ⊢
    have hhigh : x >>> half < 2 ^ half := by
      rw [Nat.shiftRight_eq_div_pow]
      exact Nat.div_lt_of_lt_mul (by rwa [← Nat.pow_add])
    rw [ih _ (Nat.xor_lt_two_pow (Nat.mod_lt _ (Nat.two_pow_pos half)) hhigh)]
    simp only [residueBit, parity_add, hmod]
    rw [← parity_xor]
    refine parity_congr fun k hk => ?_
    simp only [Nat.testBit_xor, Nat.testBit_mod_two_pow, Nat.testBit_shiftRight, hk, decide_true,
      Bool.true_and]
    cases decide (k % width = j) <;> rfl

theorem count_lt_halvings {width count : Nat} (hw : 0 < width) :
    count ≤ width * 2 ^ halvings width count := by
  have h : count / width < 2 ^ halvings width count := Nat.lt_log2_self
  exact Nat.le_of_lt ((Nat.div_lt_iff_lt_mul hw).1 h |>.trans_eq (Nat.mul_comm _ _))

theorem Register.foldRange_eq (r : Register) (first count : Nat) {width : Nat} (hw : 0 < width) :
    r.foldRange first count width = residueFold (fun k => r.bit (first + k)) count width := by
  have hle : count ≤ width * 2 ^ halvings width count := count_lt_halvings hw
  have hlt : (r.bits.extractLsb' first count).toNat < 2 ^ (width * 2 ^ halvings width count) :=
    Nat.lt_of_lt_of_le (BitVec.isLt _) (Nat.pow_le_pow_right (by decide) hle)
  refine Nat.eq_of_testBit_eq fun j => ?_
  rw [testBit_residueFold, foldRange, testBit_foldChunks _ _ _ _ hlt]
  obtain ⟨d, hd⟩ := Nat.exists_eq_add_of_le hle
  rw [hd]
  simp only [residueBit, parity_add, BitVec.testBit_toNat, BitVec.getLsbD_extractLsb', Register.bit]
  rw [parity_false (n := d) fun k _ => by simp, Bool.xor_false]
  exact parity_congr fun k hk => by simp [hk]

theorem Register.fold?_eq_some (r : Register) {first last width : Nat} (hw : 0 < width)
    (hlt : width < 64) (hle : first ≤ last) (hr : last < r.length) :
    r.fold? first last width
      = some (residueFold (fun k => r.bit (first + k)) (last + 1 - first) width) := by
  rw [fold?, if_pos ⟨hw, hlt, hle, hr⟩, r.foldRange_eq first _ hw]

/-! ## The running fold -/

/-- The running fold holds the fold from scratch of `bits`, of its own width and span. -/
def Folded.Reflects (f : Folded) (bits : Nat → Bool) : Prop :=
  ∀ j < f.width, f.bits.getLsbD j = residueBit bits f.span f.width j

theorem Folded.Reflects.value_eq {f : Folded} {bits : Nat → Bool} (h : f.Reflects bits)
    (hw : 0 < f.width) : f.value = residueFold bits f.span f.width := by
  refine Nat.eq_of_testBit_eq fun j => ?_
  rw [testBit_residueFold, Folded.value, BitVec.testBit_toNat]
  by_cases hj : j < f.width
  · exact h j hj
  · rw [BitVec.getLsbD_of_ge _ _ (by omega), residueBit_of_le hw (by omega)]

theorem Folded.reflects_zero (width span : Nat) : (zero width span).Reflects fun _ => false := by
  intro j _
  rw [residueBit, parity_false fun k _ => Bool.and_false _]
  simp [zero]

theorem getLsbD_rotateLeft_one {width : Nat} (x : BitVec width) {j : Nat} (hj : j < width) :
    (x.rotateLeft 1).getLsbD j = x.getLsbD ((j + (width - 1)) % width) := by
  rw [BitVec.getLsbD_rotateLeft]
  rcases Nat.lt_or_ge 1 width with hw | hw
  · rw [Nat.mod_eq_of_lt hw]
    rcases Nat.eq_zero_or_pos j with rfl | h0
    · rw [Nat.zero_add, Nat.mod_eq_of_lt (show width - 1 < width by omega)]
      simp
    · rw [show j + (width - 1) = j - 1 + width by omega, Nat.add_mod_right,
        Nat.mod_eq_of_lt (show j - 1 < width by omega)]
      simp [hj, show ¬ j < 1 by omega]
  · obtain rfl : width = 1 := by omega
    obtain rfl : j = 0 := by omega
    simp

theorem mod_eq_pred_iff {width j k : Nat} (hj : j < width) :
    k % width = (j + (width - 1)) % width ↔ (k + 1) % width = j := by
  have hs : j + (width - 1) + 1 = j + width := by omega
  constructor
  · intro h
    have h1 : k + 1 ≡ j + (width - 1) + 1 [MOD width] := Nat.ModEq.add_right 1 h
    rw [hs] at h1
    simpa [Nat.ModEq, Nat.mod_eq_of_lt hj] using h1
  · intro h
    refine Nat.ModEq.add_right_cancel' 1 ?_
    rw [hs]
    simpa [Nat.ModEq, Nat.mod_eq_of_lt hj] using h

theorem getLsbD_place_mod {width : Nat} (hw : 0 < width) (b : Bool) (i j : Nat) :
    (Folded.place width (i % width) b).getLsbD j = (decide (i % width = j) && b) := by
  rw [Folded.getLsbD_place, decide_eq_true (Nat.mod_lt i hw), Bool.and_true, Bool.and_comm]

/-- Following a push: the bits move up by one, `newer 0` comes in and the bit that is now at the
end of the span goes out. -/
theorem Folded.Reflects.update {f : Folded} {bits newer : Nat → Bool} {r : Register}
    (h : f.Reflects bits) (hn : ∀ k, newer (k + 1) = bits k) (h0 : r.bit 0 = newer 0)
    (hs : r.bit f.span = newer f.span) : (f.update r).Reflects newer := by
  intro j hj
  rw [Folded.width_update] at hj
  have hw : 0 < f.width := by omega
  let p : Nat → Bool := fun k => decide (k % f.width = j) && newer k
  -- the bits below `span + 1` are counted from either end
  have hends : (p 0 ^^ parity (fun k => p (1 + k)) f.span) = (parity p f.span ^^ p f.span) := by
    have := parity_add p 1 f.span
    rw [Nat.add_comm 1 f.span] at this
    simpa [parity] using this.symm
  have hrot : (f.bits.rotateLeft 1).getLsbD j = parity (fun k => p (1 + k)) f.span := by
    rw [getLsbD_rotateLeft_one _ hj, h _ (Nat.mod_lt _ hw)]
    refine parity_congr fun k _ => ?_
    simp only [p, Nat.add_comm 1 k, hn, mod_eq_pred_iff hj]
  have hbit : (f.update r).bits.getLsbD j = (parity (fun k => p (1 + k)) f.span ^^ p 0 ^^ p f.span)
      := by
    have hnew : (place f.width 0 (newer 0)).getLsbD j = p 0 :=
      Nat.zero_mod f.width ▸ getLsbD_place_mod hw (newer 0) 0 j
    rw [Folded.update, BitVec.getLsbD_xor, BitVec.getLsbD_xor, hrot, h0, hs, hnew,
      getLsbD_place_mod hw]
  rw [hbit, residueBit, Folded.span_update, Folded.width_update]
  change _ = parity p f.span
  revert hends
  cases p 0 <;> cases p f.span <;> cases parity p f.span <;>
    cases parity (fun k => p (1 + k)) f.span <;> simp

end BranchPrediction
