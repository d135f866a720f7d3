import Mathlib.Logic.Function.Iterate
import BranchPrediction.Proofs.Predictor.CheckedParts

/-!
# Training a perceptron

A perceptron that is trained again and again with one input and one outcome. The bias and each
weight that is paired with a bit are pushed to one end of their range (`Weight.limit`), and the
output moves toward the outcome by one for each that is not there yet (`output_train`). After as
many trainings as the range has steps all of them are there: the perceptron is `settled`, votes for
the outcome, and does not change any more (`train_converges`).
-/

namespace BranchPrediction

namespace Weight

def limit (bits : Nat) : Outcome → Int
  | .notTaken => lowest bits
  | .taken => highest bits

variable {bits : Nat} {w : Int}

theorem add_sign (h : InRange bits w) (o : Outcome) :
    add bits w o.sign = w + o.sign * if w = limit bits o then 0 else 1 := by
  obtain ⟨hlow, hhigh⟩ := h
  simp only [add, saturate]
  by_cases hw : w = limit bits o
  · rw [if_pos hw]
    cases o <;> simp only [limit, Outcome.sign] at hw ⊢ <;> omega
  · rw [if_neg hw]
    cases o <;> simp only [limit, Outcome.sign] at hw ⊢ <;> omega

theorem iterate_add (h : InRange bits w) (o : Outcome) (k : Nat) :
    (fun x => add bits x o.sign)^[k] w
      = w + o.sign * (min k (limit bits o - w).natAbs : Nat) := by
  obtain ⟨hlow, hhigh⟩ := h
  induction k with
  | zero => simp
  | succ k ih =>
    rw [Function.iterate_succ_apply', ih]
    cases o <;> simp only [add, saturate, limit, Outcome.sign] <;> omega

/-- The range has `2 ^ bits - 1` steps, so as many bring a weight to the limit. -/
theorem iterate_add_eq_limit (hb : ValidWidth bits) (h : InRange bits w) (o : Outcome) {k : Nat}
    (hk : 2 ^ bits - 1 ≤ k) : (fun x => add bits x o.sign)^[k] w = limit bits o := by
  have hrange : 2 ^ bits = 2 * 2 ^ (bits - 1) := by
    rw [← Nat.pow_succ', Nat.succ_eq_add_one, Nat.sub_add_cancel hb.1]
  rw [iterate_add h]
  obtain ⟨hlow, hhigh⟩ := h
  cases o <;> simp only [limit, Outcome.sign, lowest, highest] at hlow hhigh ⊢ <;> omega

end Weight

namespace Perceptron

/-- The outcome that a weight is moved toward when it is paired with `bit` and the branch goes
`o`. -/
def toward (bit : Bool) (o : Outcome) : Outcome :=
  if bit then o else o.not

theorem step_eq_sign (bit : Bool) (o : Outcome) :
    (if bit = o.toBool then 1 else -1 : Int) = (toward bit o).sign := by
  cases bit <;> cases o <;> rfl

theorem term_add_sign (bit : Bool) (o : Outcome) (w : Int) (n : Int) :
    term bit (w + (toward bit o).sign * n) = term bit w + o.sign * n := by
  cases bit <;> cases o <;> simp only [term, toward, Outcome.sign, Outcome.not] <;> grind

/-! ## One training -/

def unsettledWeights (bits : Nat) (o : Outcome) (input : List Bool) (ws : List Int) : Nat :=
  (input.zip ws).countP fun (bit, w) => w != Weight.limit bits (toward bit o)

/-- How many of the counters that take part, the bias and the paired weights, are not at their
limits. -/
def unsettled (p : Perceptron) (input : List Bool) (o : Outcome) (bits : Nat) : Nat :=
  (if p.bias = Weight.limit bits o then 0 else 1) + unsettledWeights bits o input p.weights

variable {bits : Nat} {p : Perceptron}

theorem dot_trainWeights {ws : List Int} (h : ∀ w ∈ ws, Weight.InRange bits w) (o : Outcome)
    (input : List Bool) : (List.zipWith term input (trainWeights bits o input ws)).sum
      = (List.zipWith term input ws).sum + o.sign * unsettledWeights bits o input ws := by
  induction ws generalizing input with
  | nil => cases input <;> simp [trainWeights, unsettledWeights]
  | cons w ws ih =>
    cases input with
    | nil => simp [unsettledWeights]
    | cons bit input =>
      rw [List.forall_mem_cons] at h
      have hcount : (unsettledWeights bits o (bit :: input) (w :: ws) : Int)
          = unsettledWeights bits o input ws
            + if w = Weight.limit bits (toward bit o) then 0 else 1 := by
        unfold unsettledWeights
        rw [List.zip_cons_cons, List.countP_cons]
        by_cases hw : w = Weight.limit bits (toward bit o) <;> simp [hw]
      rw [trainWeights, step_eq_sign, Weight.add_sign h.1, List.zipWith_cons_cons,
        List.zipWith_cons_cons, List.sum_cons, List.sum_cons, term_add_sign, ih h.2, hcount,
        Int.mul_add]
      omega

/-- One training moves the output toward the outcome, by one for each counter that can move. -/
theorem InRange.output_train (h : p.InRange bits) (input : List Bool) (o : Outcome) :
    (p.train input o bits).output input
      = p.output input + o.sign * p.unsettled input o bits := by
  unfold output train unsettled
  rw [dot_trainWeights h.weights, Weight.add_sign h.bias, Int.natCast_add, Int.mul_add]
  split <;> simp <;> omega

theorem InRange.train (h : p.InRange bits) (input : List Bool) (o : Outcome) :
    (p.train input o bits).InRange bits :=
  ⟨Weight.inRange_add .., inRange_trainWeights o h.weights input⟩

/-! ## Many trainings -/

def settledWeights (bits : Nat) (o : Outcome) : List Bool → List Int → List Int
  | bit :: input, _ :: ws =>
    Weight.limit bits (toward bit o) :: settledWeights bits o input ws
  | _, ws => ws

/-- The perceptron after all counters that take part have come to their limits. -/
def settled (p : Perceptron) (input : List Bool) (o : Outcome) (bits : Nat) : Perceptron :=
  ⟨Weight.limit bits o, settledWeights bits o input p.weights⟩

def trainTimes (p : Perceptron) (input : List Bool) (o : Outcome) (bits k : Nat) : Perceptron :=
  (fun q => q.train input o bits)^[k] p

theorem trainTimes_succ (p : Perceptron) (input : List Bool) (o : Outcome) (bits k : Nat) :
    p.trainTimes input o bits (k + 1) = (p.trainTimes input o bits k).train input o bits :=
  Function.iterate_succ_apply' ..

theorem InRange.trainTimes (h : p.InRange bits) (input : List Bool) (o : Outcome) (k : Nat) :
    (p.trainTimes input o bits k).InRange bits := by
  induction k with
  | zero => exact h
  | succ k ih =>
    rw [trainTimes_succ]
    exact ih.train input o

theorem length_weights_trainTimes (p : Perceptron) (input : List Bool) (o : Outcome)
    (bits k : Nat) : (p.trainTimes input o bits k).weights.length = p.weights.length := by
  induction k with
  | zero => rfl
  | succ k ih =>
    rw [trainTimes_succ, ← ih]
    exact length_trainWeights ..

theorem trainTimes_eq (p : Perceptron) (input : List Bool) (o : Outcome) (bits k : Nat) :
    p.trainTimes input o bits k = ⟨(fun x => Weight.add bits x o.sign)^[k] p.bias,
      (trainWeights bits o input)^[k] p.weights⟩ := by
  induction k with
  | zero => rfl
  | succ k ih =>
    rw [trainTimes_succ, ih, Function.iterate_succ_apply', Function.iterate_succ_apply']
    rfl

theorem iterate_trainWeights_cons (bits : Nat) (o : Outcome) (bit : Bool) (input : List Bool)
    (w : Int) (ws : List Int) (k : Nat) :
    (trainWeights bits o (bit :: input))^[k] (w :: ws)
      = (fun x => Weight.add bits x (toward bit o).sign)^[k] w
        :: (trainWeights bits o input)^[k] ws := by
  induction k with
  | zero => rfl
  | succ k ih =>
    rw [Function.iterate_succ_apply', ih, trainWeights, step_eq_sign, Function.iterate_succ_apply',
      Function.iterate_succ_apply']

theorem iterate_trainWeights_eq_settled (hb : ValidWidth bits) {ws : List Int}
    (h : ∀ w ∈ ws, Weight.InRange bits w) (o : Outcome) (input : List Bool) {k : Nat}
    (hk : 2 ^ bits - 1 ≤ k) :
    (trainWeights bits o input)^[k] ws = settledWeights bits o input ws := by
  induction ws generalizing input with
  | nil =>
    rw [Function.iterate_fixed (by cases input <;> rfl)]
    cases input <;> rfl
  | cons w ws ih =>
    rw [List.forall_mem_cons] at h
    cases input with
    | nil =>
      rw [Function.iterate_fixed rfl]
      rfl
    | cons bit input =>
      rw [iterate_trainWeights_cons, Weight.iterate_add_eq_limit hb h.1 _ hk, ih h.2]
      rfl

theorem InRange.trainTimes_eq_settled (h : p.InRange bits) (hb : ValidWidth bits)
    (input : List Bool) (o : Outcome) {k : Nat} (hk : 2 ^ bits - 1 ≤ k) :
    p.trainTimes input o bits k = p.settled input o bits := by
  rw [trainTimes_eq, Weight.iterate_add_eq_limit hb h.bias o hk,
    iterate_trainWeights_eq_settled hb h.weights o input hk]
  rfl

theorem sign_mul_term_limit (bits : Nat) (bit : Bool) (o : Outcome) :
    0 ≤ o.sign * term bit (Weight.limit bits (toward bit o)) := by
  have hpow := Nat.two_pow_pos (bits - 1)
  cases bit <;> cases o <;>
    simp only [term, toward, Weight.limit, Weight.lowest, Weight.highest, Outcome.sign,
      Outcome.not] <;> grind

theorem sign_mul_dot_settledWeights (bits : Nat) (o : Outcome) (input : List Bool)
    (ws : List Int) :
    0 ≤ o.sign * (List.zipWith term input (settledWeights bits o input ws)).sum := by
  induction ws generalizing input with
  | nil => cases input <;> simp [settledWeights]
  | cons w ws ih =>
    cases input with
    | nil => simp
    | cons bit input =>
      have hterm := sign_mul_term_limit bits bit o
      have hrest := ih input
      rw [settledWeights, List.zipWith_cons_cons, List.sum_cons, Int.mul_add]
      omega

/-- A settled perceptron votes for the outcome. At one bit the upper limit is zero, but a sum of
zero is a vote for taken. -/
theorem output_settled (p : Perceptron) (input : List Bool) (o : Outcome) (bits : Nat) :
    0 ≤ (p.settled input o bits).output input ↔ o = .taken := by
  have hpow := Nat.two_pow_pos (bits - 1)
  have hdot := sign_mul_dot_settledWeights bits o input p.weights
  unfold output settled
  cases o <;> simp only [Weight.limit, Weight.lowest, Weight.highest, Outcome.sign] at hdot ⊢
  · simp only [reduceCtorEq, iff_false]
    omega
  · simp only [iff_true]
    omega

/-- Training never fails, moves the output by one toward the outcome for each counter that takes
part and is not at its limit, and leaves weights without a bit alone. After `2 ^ bits - 1` trainings
with one input and one outcome the perceptron votes for the outcome, and it stays as it is. The
outputs are sums of 32 bits wherever the input and the weights are not far too long. -/
theorem train_converges (hb : ValidWidth bits) (h : p.InRange bits) (input : List Bool)
    (o : Outcome) :
    (p.train input o bits).output input
        = p.output input + o.sign * p.unsettled input o bits ∧
      (p.train input o bits).weights.length = p.weights.length ∧
      (p.train input o bits).weights.drop input.length = p.weights.drop input.length ∧
      (∀ k, 2 ^ bits - 1 ≤ k →
        (0 ≤ (p.trainTimes input o bits k).output input ↔ o = .taken) ∧
        (p.trainTimes input o bits k).train input o bits = p.trainTimes input o bits k) ∧
      ∀ k, (p.trainTimes input o bits k).train? input o bits
          = some (p.trainTimes input o bits (k + 1)) ∧
        ((min input.length p.weights.length + 1) * 2 ^ (bits - 1) < 2 ^ 31 →
          (p.trainTimes input o bits k).output? input
            = some ((p.trainTimes input o bits k).output input)) := by
  refine ⟨h.output_train input o, length_trainWeights .., drop_trainWeights .., ?_, ?_⟩
  · intro k hk
    have hsucc := trainTimes_succ p input o bits k
    rw [h.trainTimes_eq_settled hb input o (Nat.le_succ_of_le hk)] at hsucc
    rw [h.trainTimes_eq_settled hb input o hk] at hsucc ⊢
    exact ⟨output_settled p input o bits, hsucc.symm⟩
  · intro k
    have hk := h.trainTimes input o k
    refine ⟨?_, fun hfit => hk.output?_eq_some input ?_⟩
    · rw [trainTimes_succ]
      exact hk.train?_eq_some hb input o
    · unfold outputBound
      rw [length_weights_trainTimes]
      exact hfit

/-- The first weight is at its limit already, the second is moved down, and the third has no bit. -/
theorem train_converges_small :
    ValidWidth 2 ∧ InRange 2 ⟨-2, [1, 0, 1]⟩ ∧
      (train ⟨-2, [1, 0, 1]⟩ [true, false] .taken 2).output [true, false]
        = output ⟨-2, [1, 0, 1]⟩ [true, false] + 2 ∧
      (0 ≤ (trainTimes ⟨-2, [1, 0, 1]⟩ [true, false] .taken 2 3).output [true, false] ↔
        Outcome.taken = .taken) ∧
      (trainTimes ⟨-2, [1, 0, 1]⟩ [true, false] .taken 2 3).train [true, false] .taken 2
        = ⟨1, [1, -2, 1]⟩ := by
  have hb : ValidWidth 2 := ⟨by decide, by decide⟩
  have hp : InRange 2 ⟨-2, [1, 0, 1]⟩ := ⟨by unfold Weight.InRange; decide, by
    unfold Weight.InRange; decide⟩
  obtain ⟨hout, -, -, hmany, -⟩ := train_converges hb hp [true, false] .taken
  obtain ⟨hvote, hstays⟩ := hmany 3 (by decide)
  exact ⟨hb, hp, hout, hvote, hstays⟩

end Perceptron

end BranchPrediction
