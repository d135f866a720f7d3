import BranchPrediction.Proofs.History.ResidueFold
import Mathlib.Data.List.Induction

/-!
# A register with a running fold

`Tracked` is a register and a running fold that follows each push of it and is cleared with it.
`Follows` ties both to the log of the pushed bits; one lemma says that a step keeps it, and an
induction carries it over a run. Main statement: `Tracked.matched_run`. The running fold of such a
pair always has the value that folding the newest bits of the register has.
-/

namespace BranchPrediction

/-- What happens to a register and to the running fold of it. -/
inductive HistoryStep where
  /-- a push of the register, which the fold follows -/
  | push (b : Bool)
  | clear
  deriving DecidableEq, Repr

def HistoryStep.record (bits : Nat → Bool) : HistoryStep → Nat → Bool
  | push b, 0 => b
  | push _, k + 1 => bits k
  | clear, _ => false

/-- The bits of a history after steps, the newest at index 0. -/
def recorded (bits : Nat → Bool) (steps : List HistoryStep) : Nat → Bool :=
  steps.foldl HistoryStep.record bits

theorem recorded_pushes (bits : Nat → Bool) (steps : List HistoryStep) (bs : List Bool) {k : Nat}
    (hk : k < bs.length) :
    recorded bits (steps ++ bs.map .push) k = bs.reverse.getD k false := by
  rw [recorded, List.foldl_append]
  generalize steps.foldl HistoryStep.record bits = start
  induction bs using List.reverseRecOn generalizing k with
  | nil => exact absurd hk (Nat.not_lt_zero k)
  | append_singleton bs b ih =>
    simp only [List.map_append, List.map_cons, List.map_nil, List.foldl_append, List.foldl_cons,
      List.foldl_nil, List.reverse_append, List.reverse_cons, List.reverse_nil, List.nil_append]
    cases k with
    | zero => rfl
    | succ k => exact ih (by simpa using hk)

theorem Register.fold?_newest (r : Register) {width span : Nat} (hw : 0 < width)
    (hlt : width < 64) (hs : 0 < span) (hr : span < r.length) :
    r.fold? 0 (span - 1) width = some (residueFold r.bit span width) := by
  have hcount : span - 1 + 1 - 0 = span := by omega
  rw [r.fold?_eq_some hw hlt (Nat.zero_le _) (by omega), hcount]
  simp only [Nat.zero_add]

namespace Folded

variable {f : Folded} {bits : Nat → Bool}

theorem value?_eq (hw : 0 < f.width) (hlt : f.width < 64) : f.value? = some f.value :=
  if_pos ⟨hw, Nat.le_of_lt hlt⟩

/-- The value says which bits the fold holds. -/
theorem reflects_of_value_eq (h : f.value = residueFold bits f.span f.width) : f.Reflects bits := by
  intro j _
  rw [← testBit_residueFold, ← h, value, BitVec.testBit_toNat]

end Folded

/-! ## Pairs -/

structure Tracked where
  register : Register
  folded : Folded
  deriving DecidableEq, Repr

namespace Tracked

/-- Fails where the fold cannot follow the register. -/
def step? (h : Tracked) : HistoryStep → Option Tracked
  | .push b => do
    let register := h.register.push b
    let folded ← h.folded.update? register
    return ⟨register, folded⟩
  | .clear => some ⟨h.register.clear, h.folded.clear⟩

def run? (h : Tracked) (steps : List HistoryStep) : Option Tracked :=
  steps.foldlM step? h

/-- The fold is narrower than a word, the register holds one bit more than the fold spans, and
folding the spanned bits gives the running value. -/
structure Matched (h : Tracked) : Prop where
  width_pos : 0 < h.folded.width
  width_lt : h.folded.width < 64
  span_pos : 0 < h.folded.span
  span_lt : h.folded.span < h.register.length
  value_eq : h.folded.value? = h.register.fold? 0 (h.folded.span - 1) h.folded.width

/-- Both parts hold the bits of a log, the fold as far as it spans. -/
structure Follows (h : Tracked) (width span length : Nat) (bits : Nat → Bool) : Prop where
  width_eq : h.folded.width = width
  span_eq : h.folded.span = span
  length_eq : h.register.length = length
  bit : ∀ k < length, h.register.bit k = bits k
  reflects : h.folded.Reflects bits

variable {h : Tracked} {width span length : Nat} {bits : Nat → Bool}

theorem Follows.step (hf : h.Follows width span length bits) (hw : 0 < width)
    (hs : span < length) (s : HistoryStep) :
    ∃ h', h.step? s = some h' ∧ h'.Follows width span length (s.record bits) := by
  obtain ⟨rfl, rfl, rfl, hbit, hreflects⟩ := hf
  cases s with
  | push b =>
    have hpush : ∀ k < h.register.length,
        (h.register.push b).bit k = (HistoryStep.push b).record bits k := by
      intro k hk
      rw [Register.bit_push, decide_eq_true hk, Bool.true_and]
      cases k with
      | zero => rfl
      | succ k => exact hbit k (Nat.lt_of_succ_lt hk)
    refine ⟨⟨h.register.push b, h.folded.update (h.register.push b)⟩, ?_, rfl, rfl, rfl, hpush, ?_⟩
    · simp [step?, Folded.update?, hw, hs]
    · -- the bit that comes in is the newest one, the bit that leaves is right behind the span
      exact hreflects.update (fun _ => rfl) (hpush 0 (Nat.zero_lt_of_lt hs)) (hpush _ hs)
  | clear =>
    exact ⟨_, rfl, rfl, rfl, rfl, fun k _ => Register.bit_zero _ k, Folded.reflects_zero _ _⟩

theorem Follows.run (hf : h.Follows width span length bits) (hw : 0 < width)
    (hs : span < length) (steps : List HistoryStep) :
    ∃ h', h.run? steps = some h' ∧ h'.Follows width span length (recorded bits steps) := by
  induction steps generalizing h bits with
  | nil => exact ⟨h, rfl, hf⟩
  | cons s steps ih =>
    obtain ⟨h₁, hstep, hf₁⟩ := hf.step hw hs s
    obtain ⟨h₂, hrun, hf₂⟩ := ih hf₁
    exact ⟨h₂, by rw [run?, List.foldlM_cons, hstep]; exact hrun, hf₂⟩

theorem Matched.follows (hm : h.Matched) :
    h.Follows h.folded.width h.folded.span h.register.length h.register.bit := by
  refine ⟨rfl, rfl, rfl, fun _ _ => rfl, Folded.reflects_of_value_eq ?_⟩
  have hvalue := hm.value_eq
  rw [Folded.value?_eq hm.width_pos hm.width_lt,
    Register.fold?_newest _ hm.width_pos hm.width_lt hm.span_pos hm.span_lt] at hvalue
  exact Option.some.inj hvalue

theorem Follows.matched (hf : h.Follows width span length bits) (hw : 0 < width)
    (hlt : width < 64) (hs : 0 < span) (hl : span < length) :
    h.Matched ∧ h.folded.value? = some (residueFold bits span width) := by
  obtain ⟨rfl, rfl, rfl, hbit, hreflects⟩ := hf
  have hvalue : h.folded.value? = some (residueFold bits h.folded.span h.folded.width) := by
    rw [Folded.value?_eq hw hlt, hreflects.value_eq hw]
  refine ⟨⟨hw, hlt, hs, hl, ?_⟩, hvalue⟩
  rw [hvalue, Register.fold?_newest _ hw hlt hs hl,
    residueFold_congr _ fun k hk => (hbit k (Nat.lt_trans hk hl)).symm]

/-- Steps keep a pair matched, and the value after them is the fold of the bits recorded by then. -/
theorem Matched.run (hm : h.Matched) (steps : List HistoryStep) :
    ∃ h', h.run? steps = some h' ∧ h'.Matched ∧
      h'.folded.width = h.folded.width ∧ h'.folded.span = h.folded.span ∧
      h'.folded.value?
        = some (residueFold (recorded h.register.bit steps) h.folded.span h.folded.width) := by
  obtain ⟨h', hrun, hf⟩ := hm.follows.run hm.width_pos hm.span_lt steps
  obtain ⟨hm', hvalue⟩ := hf.matched hm.width_pos hm.width_lt hm.span_pos hm.span_lt
  exact ⟨h', hrun, hm', hf.width_eq, hf.span_eq, hvalue⟩

theorem matched_zero (hw : 0 < width) (hlt : width < 64) (hs : 0 < span) (hl : span < length) :
    (⟨.zero length, .zero width span⟩ : Tracked).Matched := by
  have hf : (⟨.zero length, .zero width span⟩ : Tracked).Follows width span length fun _ => false :=
    ⟨rfl, rfl, rfl, fun k _ => Register.bit_zero _ k, Folded.reflects_zero _ _⟩
  exact (hf.matched hw hlt hs hl).1

/-- Two runs that end with the same pushes, as many as the folds span, end with the same value. -/
theorem Matched.run_pushes {h₁ h₂ : Tracked} (hm₁ : h₁.Matched) (hm₂ : h₂.Matched)
    (hwidth : h₁.folded.width = h₂.folded.width) (hspan : h₁.folded.span = h₂.folded.span)
    (steps₁ steps₂ : List HistoryStep) {bs : List Bool} (hbs : h₁.folded.span ≤ bs.length) :
    ∃ h₁' h₂', h₁.run? (steps₁ ++ bs.map .push) = some h₁' ∧
      h₂.run? (steps₂ ++ bs.map .push) = some h₂' ∧ h₁'.folded.value? = h₂'.folded.value? := by
  obtain ⟨h₁', hrun₁, -, -, -, hvalue₁⟩ := hm₁.run (steps₁ ++ bs.map .push)
  obtain ⟨h₂', hrun₂, -, -, -, hvalue₂⟩ := hm₂.run (steps₂ ++ bs.map .push)
  refine ⟨h₁', h₂', hrun₁, hrun₂, ?_⟩
  rw [hvalue₁, hvalue₂, ← hwidth, ← hspan]
  congr 1
  refine residueFold_congr _ fun k hk => ?_
  have hk' : k < bs.length := Nat.lt_of_lt_of_le hk hbs
  rw [recorded_pushes _ _ _ hk', recorded_pushes _ _ _ hk']

/-- Start with a running fold that is narrower than a word and a register that is longer than what
the fold spans, where folding the newest bits of the register gives the running value. After any
pushes that the fold follows, and any clears of both, no check has failed and folding the newest
bits still gives the running value. A pair of zeros is such a start, and the value is a function of
the newest bits that the fold spans. -/
theorem matched_run :
    (∀ h : Tracked, h.Matched → ∀ steps, ∃ h', h.run? steps = some h' ∧ h'.Matched ∧
      h'.folded.width = h.folded.width ∧ h'.folded.span = h.folded.span ∧
      h'.folded.value?
        = some (residueFold (recorded h.register.bit steps) h.folded.span h.folded.width)) ∧
    (∀ width span length, 0 < width → width < 64 → 0 < span → span < length →
      ∃ f, Folded.zero? width span = some f ∧ f.width = width ∧ f.span = span ∧
        (⟨.zero length, f⟩ : Tracked).Matched) ∧
    ∀ h₁ h₂ : Tracked, h₁.Matched → h₂.Matched → h₁.folded.width = h₂.folded.width →
      h₁.folded.span = h₂.folded.span →
      ∀ steps₁ steps₂ (bs : List Bool), h₁.folded.span ≤ bs.length →
        ∃ h₁' h₂', h₁.run? (steps₁ ++ bs.map .push) = some h₁' ∧
          h₂.run? (steps₂ ++ bs.map .push) = some h₂' ∧
          h₁'.folded.value? = h₂'.folded.value? := by
  refine ⟨fun h hm => hm.run, fun width span length hw hlt hs hl => ?_,
    fun h₁ h₂ hm₁ hm₂ hwidth hspan s₁ s₂ bs hbs => hm₁.run_pushes hm₂ hwidth hspan s₁ s₂ hbs⟩
  exact ⟨.zero width span, if_pos ⟨hw, hlt, hs⟩, rfl, rfl, matched_zero hw hlt hs hl⟩

/-- Three of the five bits that the fold spans make a chunk, and two are left over. The second
pair starts from ones. -/
theorem matched_run_small :
    let h₁ : Tracked := ⟨.zero 6, .zero 3 5⟩
    let h₂ : Tracked := ⟨⟨7, 0b1111111⟩, ⟨3, 5, 0b100⟩⟩
    let steps : List HistoryStep := [.push true, .clear, .push true, .push false]
    let bs := [true, false, true, true, true]
    h₁.Matched ∧ h₂.Matched ∧
      (∃ h, h₁.run? steps = some h ∧ h.Matched ∧ h.folded.value? = some 0b010) ∧
      ∃ h₁' h₂', h₁.run? (steps ++ bs.map .push) = some h₁' ∧
        h₂.run? ([] ++ bs.map .push) = some h₂' ∧ h₁'.folded.value? = h₂'.folded.value? := by
  intro h₁ h₂ steps bs
  obtain ⟨hrun, hzero, hpushes⟩ := matched_run
  obtain ⟨f, hf, -, -, hm⟩ := hzero 3 5 6 (by decide) (by decide) (by decide) (by decide)
  obtain rfl : f = .zero 3 5 := (Option.some.inj hf).symm
  have hm₂ : h₂.Matched := ⟨by decide, by decide, by decide, by decide, by decide⟩
  refine ⟨hm, hm₂, ?_, hpushes h₁ h₂ hm hm₂ rfl rfl steps [] bs (by decide)⟩
  obtain ⟨h, hrun, hm', -, -, hvalue⟩ := hrun h₁ hm steps
  exact ⟨h, hrun, hm', hvalue.trans (by decide)⟩

end Tracked

end BranchPrediction
