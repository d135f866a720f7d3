import BranchPrediction.Proofs.Predictor.WellFormed

/-!
# Outputs of perceptrons

The weights have a range, so the output of a perceptron has a bound (`InRange.natAbs_output_le`):
the bias and each weight that is paired with a bit, all at the lower end. Where that bound is a
number of 32 bits, so are the sums on the way (`InRange.output?_eq_some`).
-/

namespace BranchPrediction

theorem addInt32?_eq_some {x y : Int} (h : -2 ^ 31 ≤ x + y) (h' : x + y < 2 ^ 31) :
    addInt32? x y = some (x + y) := by
  unfold addInt32? fitsInt32
  rw [if_pos (by simp only [Bool.and_eq_true, decide_eq_true_eq]; exact ⟨h, h'⟩)]

theorem natAbs_sum_le {l : List Int} {b : Nat} (h : ∀ x ∈ l, x.natAbs ≤ b) :
    l.sum.natAbs ≤ l.length * b := by
  induction l with
  | nil => exact Nat.zero_le _
  | cons x l ih =>
    rw [List.forall_mem_cons] at h
    have hx := h.1
    have hl := ih h.2
    rw [List.sum_cons, List.length_cons, Nat.succ_mul]
    omega

/-- Sums of small numbers fit, from the left to the right. -/
theorem foldlM_addInt32?_eq_some {l : List Int} {b : Nat} (h : ∀ x ∈ l, x.natAbs ≤ b) (s : Int)
    (hs : s.natAbs + l.length * b < 2 ^ 31) : l.foldlM addInt32? s = some (s + l.sum) := by
  induction l generalizing s with
  | nil => simp
  | cons x l ih =>
    rw [List.forall_mem_cons] at h
    have hx := h.1
    rw [List.length_cons, Nat.succ_mul] at hs
    have hsum : (s + x).natAbs + l.length * b < 2 ^ 31 := by omega
    rw [List.foldlM_cons, addInt32?_eq_some (by omega) (by omega), List.sum_cons, ← Int.add_assoc]
    exact ih h.2 (s + x) hsum

theorem Weight.InRange.natAbs_le {bits : Nat} {w : Int} (h : Weight.InRange bits w) :
    w.natAbs ≤ 2 ^ (bits - 1) := by
  obtain ⟨hlow, hhigh⟩ := h
  simp only [Weight.lowest, Weight.highest] at hlow hhigh
  omega

namespace Perceptron

/-- The greatest magnitude of an output of a perceptron for an input. -/
def outputBound (p : Perceptron) (input : List Bool) (bits : Nat) : Nat :=
  (min input.length p.weights.length + 1) * 2 ^ (bits - 1)

theorem natAbs_term (bit : Bool) (w : Int) : (term bit w).natAbs = w.natAbs := by
  cases bit
  · exact Int.natAbs_neg w
  · rfl

theorem natAbs_zipWith_term_le {b : Nat} {ws : List Int} (h : ∀ w ∈ ws, w.natAbs ≤ b)
    (input : List Bool) : ∀ x ∈ List.zipWith term input ws, x.natAbs ≤ b := by
  intro x hx
  obtain ⟨i, hi⟩ := List.mem_iff_getElem?.1 hx
  obtain ⟨bit, w, -, hw, rfl⟩ := List.getElem?_zipWith_eq_some.1 hi
  rw [natAbs_term]
  exact h w (List.mem_of_getElem? hw)

section
variable {bits : Nat} {p : Perceptron} (h : p.InRange bits) (input : List Bool)
include h

theorem InRange.natAbs_output_le : (p.output input).natAbs ≤ p.outputBound input bits := by
  have hbias := h.bias.natAbs_le
  have hsum := natAbs_sum_le
    (natAbs_zipWith_term_le (fun w hw => (h.weights w hw).natAbs_le) input)
  rw [List.length_zipWith] at hsum
  unfold output outputBound
  rw [Nat.add_mul, Nat.one_mul]
  omega

theorem InRange.output?_eq_some (hb : p.outputBound input bits < 2 ^ 31) :
    p.output? input = some (p.output input) := by
  have hterms := natAbs_zipWith_term_le (fun w hw => (h.weights w hw).natAbs_le) input
  have hout := h.natAbs_output_le input
  have hlen : (List.zipWith term input p.weights).length = min input.length p.weights.length :=
    List.length_zipWith
  have hdot : (List.zipWith term input p.weights).foldlM addInt32? 0
      = some (0 + (List.zipWith term input p.weights).sum) := by
    apply foldlM_addInt32?_eq_some hterms
    rw [hlen]
    unfold outputBound at hb
    rw [Nat.add_mul] at hb
    omega
  unfold output at hout
  unfold output? output
  rw [hdot, Int.zero_add]
  exact addInt32?_eq_some (by omega) (by omega)

end

end Perceptron

end BranchPrediction
