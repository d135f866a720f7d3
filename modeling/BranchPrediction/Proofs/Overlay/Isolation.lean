import BranchPrediction.Proofs.Overlay.Lessons
import BranchPrediction.Proofs.Predictor.CheckedParts

/-!
# Isolation of lessons

A lesson reads and changes one perceptron and one local register, those of its address. So two
streams of lessons that have none of these in common do not notice each other, however they are
interleaved: `AgreeOn` says that two overlays cannot be told apart by one of the streams, a lesson
of either stream keeps it (`AgreeOn.learn`, `AgreeOn.learn_left`), and so does a whole interleaving
(`AgreeOn.learnAll`).
-/

namespace BranchPrediction

/-- One of two streams out of an interleaving of them, in which each element is marked with the
stream that it belongs to. -/
def streamOf {α : Type} (b : Bool) (marked : List (Bool × α)) : List α :=
  (marked.filter fun e => e.1 == b).map Prod.snd

section
variable {α : Type} {b : Bool} {e : Bool × α} (marked : List (Bool × α))

theorem streamOf_cons_self (h : e.1 = b) : streamOf b (e :: marked) = e.2 :: streamOf b marked := by
  simp [streamOf, h]

theorem streamOf_cons_other (h : e.1 ≠ b) : streamOf b (e :: marked) = streamOf b marked := by
  simp [streamOf, h]

end

namespace Overlay

/-- The votes on the addresses of lessons, each before the lesson is learned. -/
def votes (o : Overlay) : List (UInt64 × Outcome) → List Vote
  | [] => []
  | e :: es => o.vote e.1 :: (o.learn e).votes es

/-- Votes on lessons and learns them. Fails where a vote or the training does. -/
def feed? (o : Overlay) : List (UInt64 × Outcome) → Option (List Vote × Overlay)
  | [] => some ([], o)
  | e :: es => do
    let v ← o.vote? e.1
    let o ← o.train? v e.2
    let (vs, o) ← o.feed? es
    some (v :: vs, o)

theorem WellFormed.learn {o : Overlay} (h : o.WellFormed) (e : UInt64 × Outcome) :
    (o.learn e).WellFormed :=
  h.train ..

theorem WellFormed.train?_eq_some {o : Overlay} (h : o.WellFormed) (hv : o.config.Valid)
    (e : UInt64 × Outcome) : o.train? (o.vote e.1) e.2 = some (o.learn e) := by
  obtain ⟨hperceptron, hhistory⟩ := o.vote_lt hv e.1
  obtain ⟨p, hp⟩ := h.trained?_isSome hv hperceptron hhistory e.2
  unfold train?
  rw [hp]
  rfl

theorem WellFormed.feed?_eq_some {o : Overlay} (h : o.WellFormed) (hv : o.config.Valid)
    (es : List (UInt64 × Outcome)) : o.feed? es = some (o.votes es, o.learnAll es) := by
  induction es generalizing o with
  | nil => rfl
  | cons e es ih =>
    unfold feed?
    rw [((h.shaped hv).vote?_eq_some hv e.1).1]
    simp only [Option.bind_eq_bind, Option.bind_some, h.train?_eq_some hv, ih (h.learn e) hv]
    rfl

/-! ## Overlays that cannot be told apart -/

/-- Two overlays of one configuration that have the same perceptrons in `P` and the same local
registers in `R`. -/
structure AgreeOn (P R : Nat → Prop) (o o' : Overlay) : Prop where
  config : o.config = o'.config
  perceptrons : ∀ n, P n → o.perceptrons[n]? = o'.perceptrons[n]?
  histories : ∀ s, R s → o.histories[s]? = o'.histories[s]?

theorem getElem?_perceptrons_learn (o : Overlay) (e : UInt64 × Outcome) (n : Nat) :
    (o.learn e).perceptrons[n]? =
      if o.perceptronIndex e.1 = n then o.perceptrons[n]?.map fun p =>
        p.train (o.inputOf (o.history (o.historyIndex e.1))) e.2 o.config.weightBits
      else o.perceptrons[n]? :=
  Array.getElem?_modify

section
variable {P R : Nat → Prop} {o o' : Overlay} {e : UInt64 × Outcome}

theorem AgreeOn.refl (P R : Nat → Prop) (o : Overlay) : AgreeOn P R o o :=
  ⟨rfl, fun _ _ => rfl, fun _ _ => rfl⟩

theorem AgreeOn.history_eq (h : AgreeOn P R o o') {pc : UInt64} (hr : R (o.historyIndex pc)) :
    o.history (o.historyIndex pc) = o'.history (o'.historyIndex pc) := by
  have hindex : o'.historyIndex pc = o.historyIndex pc := by
    unfold historyIndex
    rw [h.config]
  unfold history
  rw [hindex, h.histories _ hr]

theorem AgreeOn.vote_eq (h : AgreeOn P R o o') {pc : UInt64} (hp : P (o.perceptronIndex pc))
    (hr : R (o.historyIndex pc)) : o.vote pc = o'.vote pc := by
  have hhistory := h.history_eq hr
  have hperceptron : o.perceptron (o.perceptronIndex pc)
      = o'.perceptron (o'.perceptronIndex pc) := by
    unfold perceptron
    rw [h.perceptrons _ hp]
    unfold perceptronIndex
    rw [h.config]
  unfold vote
  rw [hhistory, hperceptron]
  unfold perceptronIndex historyIndex inputOf
  rw [h.config]

/-- A lesson within reach leaves both overlays alike. -/
theorem AgreeOn.learn (h : AgreeOn P R o o') (hr : R (o.historyIndex e.1)) :
    AgreeOn P R (o.learn e) (o'.learn e) where
  config := h.config
  perceptrons n hn := by
    rw [getElem?_perceptrons_learn, getElem?_perceptrons_learn, h.history_eq hr,
      h.perceptrons n hn]
    unfold perceptronIndex inputOf
    rw [h.config]
  histories s hs := by
    rw [getElem?_histories_learn, getElem?_histories_learn, h.histories s hs, h.config]

theorem AgreeOn.learn_left (h : AgreeOn P R o o') (hp : ¬ P (o.perceptronIndex e.1))
    (hr : ¬ R (o.historyIndex e.1)) : AgreeOn P R (o.learn e) o' where
  config := h.config
  perceptrons n hn := by
    have hne : o.perceptronIndex e.1 ≠ n := by
      rintro rfl
      exact hp hn
    rw [getElem?_perceptrons_learn, if_neg hne]
    exact h.perceptrons n hn
  histories s hs := by
    have hne : o.config.registerOf e.1 ≠ s := by
      rintro rfl
      exact hr hs
    rw [getElem?_histories_learn, if_neg hne]
    exact h.histories s hs

theorem AgreeOn.learnAll_left (h : AgreeOn P R o o') {es : List (UInt64 × Outcome)}
    (hes : ∀ e ∈ es, ¬ P (o.perceptronIndex e.1) ∧ ¬ R (o.historyIndex e.1)) :
    AgreeOn P R (o.learnAll es) o' := by
  induction es generalizing o with
  | nil => exact h
  | cons e es ih =>
    rw [List.forall_mem_cons] at hes
    exact ih (h.learn_left hes.1.1 hes.1.2) hes.2

/-! ## Interleavings -/

/-- An overlay that is fed an interleaving and one that is fed only the stream `b` cannot be told
apart by that stream, if all of its lessons are within reach and none of the other stream is. -/
theorem AgreeOn.learnAll (h : AgreeOn P R o o') (b : Bool)
    {marked : List (Bool × UInt64 × Outcome)}
    (own : ∀ e ∈ marked, e.1 = b → P (o.perceptronIndex e.2.1) ∧ R (o.historyIndex e.2.1))
    (other : ∀ e ∈ marked, e.1 ≠ b →
      ¬ P (o.perceptronIndex e.2.1) ∧ ¬ R (o.historyIndex e.2.1)) :
    AgreeOn P R (o.learnAll (marked.map Prod.snd)) (o'.learnAll (streamOf b marked)) ∧
      streamOf b ((marked.map Prod.fst).zip (o.votes (marked.map Prod.snd)))
        = o'.votes (streamOf b marked) := by
  induction marked generalizing o o' with
  | nil => exact ⟨h, rfl⟩
  | cons e marked ih =>
    rw [List.forall_mem_cons] at own other
    by_cases he : e.1 = b
    · obtain ⟨hp, hr⟩ := own.1 he
      obtain ⟨hagree, hvotes⟩ := ih (h.learn hr) own.2 other.2
      refine ⟨?_, ?_⟩
      · rw [streamOf_cons_self _ he]
        exact hagree
      · rw [streamOf_cons_self _ he, votes, ← hvotes, ← h.vote_eq hp hr]
        exact streamOf_cons_self _ he
    · obtain ⟨hp, hr⟩ := other.1 he
      obtain ⟨hagree, hvotes⟩ := ih (h.learn_left hp hr) own.2 other.2
      refine ⟨?_, ?_⟩
      · rw [streamOf_cons_other _ he]
        exact hagree
      · rw [streamOf_cons_other _ he, ← hvotes]
        exact streamOf_cons_other _ he

end

/-- The addresses of lessons have no perceptron and no local register in common. -/
def Apart (o : Overlay) (es fs : List (UInt64 × Outcome)) : Prop :=
  ∀ e ∈ es, ∀ f ∈ fs, o.perceptronIndex e.1 ≠ o.perceptronIndex f.1 ∧
    o.historyIndex e.1 ≠ o.historyIndex f.1

def SparesPerceptron (o : Overlay) (es : List (UInt64 × Outcome)) (n : Nat) : Prop :=
  ∀ e ∈ es, o.perceptronIndex e.1 ≠ n

def SparesHistory (o : Overlay) (es : List (UInt64 × Outcome)) (s : Nat) : Prop :=
  ∀ e ∈ es, o.historyIndex e.1 ≠ s

section
variable {o : Overlay} {es fs : List (UInt64 × Outcome)} {e : UInt64 × Outcome}

theorem Apart.symm (h : o.Apart es fs) : o.Apart fs es :=
  fun f hf e he => ⟨(h e he f hf).1.symm, (h e he f hf).2.symm⟩

theorem Apart.sparesPerceptron (h : o.Apart es fs) (he : e ∈ es) :
    o.SparesPerceptron fs (o.perceptronIndex e.1) :=
  fun f hf => (h e he f hf).1.symm

theorem Apart.sparesHistory (h : o.Apart es fs) (he : e ∈ es) :
    o.SparesHistory fs (o.historyIndex e.1) :=
  fun f hf => (h e he f hf).2.symm

theorem agreeOn_spared (o : Overlay) (es : List (UInt64 × Outcome)) :
    AgreeOn (o.SparesPerceptron es) (o.SparesHistory es) (o.learnAll es) o :=
  (AgreeOn.refl ..).learnAll_left fun e he => ⟨fun h => h e he rfl, fun h => h e he rfl⟩

end

theorem mem_streamOf {marked : List (Bool × UInt64 × Outcome)} {e : Bool × UInt64 × Outcome}
    (h : e ∈ marked) : e.2 ∈ streamOf e.1 marked :=
  List.mem_map_of_mem (List.mem_filter.2 ⟨h, by simp⟩)

theorem Apart.agreeOn {o : Overlay} {marked : List (Bool × UInt64 × Outcome)} {b : Bool}
    (h : o.Apart (streamOf b marked) (streamOf (!b) marked)) :
    AgreeOn (o.SparesPerceptron (streamOf (!b) marked)) (o.SparesHistory (streamOf (!b) marked))
        (o.learnAll (marked.map Prod.snd)) (o.learnAll (streamOf b marked)) ∧
      streamOf b ((marked.map Prod.fst).zip (o.votes (marked.map Prod.snd)))
        = o.votes (streamOf b marked) := by
  apply (AgreeOn.refl ..).learnAll b
  · rintro e he rfl
    exact ⟨h.sparesPerceptron (mem_streamOf he), h.sparesHistory (mem_streamOf he)⟩
  · intro e he hne
    have hmem := mem_streamOf he
    rw [Bool.eq_not_of_ne hne] at hmem
    exact ⟨fun hp => hp _ hmem rfl, fun hr => hr _ hmem rfl⟩

/-- Two streams apart from each other, in any interleaving: each lesson of either stream is met with
the same vote as if that stream came alone, and the perceptrons and the local registers that the
stream touches end as if it came alone. What neither touches stays as it is. Feeding never fails. -/
theorem feed_isolated {o : Overlay} (hc : o.config.validate = .ok ()) (h : o.WellFormed)
    (marked : List (Bool × UInt64 × Outcome))
    (hapart : o.Apart (streamOf false marked) (streamOf true marked)) :
    ∃ votes fed, o.feed? (marked.map Prod.snd) = some (votes, fed) ∧
      (∀ b, ∃ alone, o.feed? (streamOf b marked)
          = some (streamOf b ((marked.map Prod.fst).zip votes), alone) ∧
        ∀ e ∈ streamOf b marked,
          fed.perceptrons[o.perceptronIndex e.1]? = alone.perceptrons[o.perceptronIndex e.1]? ∧
          fed.histories[o.historyIndex e.1]? = alone.histories[o.historyIndex e.1]?) ∧
      (∀ n, o.SparesPerceptron (marked.map Prod.snd) n →
        fed.perceptrons[n]? = o.perceptrons[n]?) ∧
      ∀ s, o.SparesHistory (marked.map Prod.snd) s → fed.histories[s]? = o.histories[s]? := by
  have hv := OverlayConfig.validate_eq_ok.1 hc
  have hsides : ∀ b, o.Apart (streamOf b marked) (streamOf (!b) marked) := by
    intro b
    cases b with
    | false => exact hapart
    | true => exact hapart.symm
  have hspared := o.agreeOn_spared (marked.map Prod.snd)
  refine ⟨_, _, h.feed?_eq_some hv _, fun b => ?_, hspared.perceptrons, hspared.histories⟩
  obtain ⟨hagree, hvotes⟩ := (hsides b).agreeOn
  refine ⟨o.learnAll (streamOf b marked), ?_, fun e he => ⟨?_, ?_⟩⟩
  · rw [h.feed?_eq_some hv, hvotes]
  · exact hagree.perceptrons _ ((hsides b).sparesPerceptron he)
  · exact hagree.histories _ ((hsides b).sparesHistory he)

/-- Addresses 0 and 1 have different perceptrons and local registers; the stream of address 1 is
the one marked `true`. -/
theorem feed_isolated_small :
    ∃ votes fed, (ofConfig ⟨2, 2, 3, 2, 2, 1⟩).feed?
        [(0, .taken), (1, .notTaken), (0, .notTaken), (1, .notTaken)] = some (votes, fed) ∧
      ∃ alone, (ofConfig ⟨2, 2, 3, 2, 2, 1⟩).feed? [(1, .notTaken), (1, .notTaken)]
          = some (streamOf true ([false, true, false, true].zip votes), alone) ∧
        fed.perceptrons[1]? = alone.perceptrons[1]? ∧ fed.histories[1]? = alone.histories[1]? := by
  obtain ⟨votes, fed, hfed, hstreams, -⟩ := feed_isolated (o := ofConfig ⟨2, 2, 3, 2, 2, 1⟩)
    (by decide) (wellFormed_ofConfig _)
    [(false, 0, .taken), (true, 1, .notTaken), (false, 0, .notTaken), (true, 1, .notTaken)]
    (by unfold Apart; decide)
  obtain ⟨alone, halone, hsame⟩ := hstreams true
  obtain ⟨hperceptron, hhistory⟩ := hsame (1, .notTaken) (by decide)
  exact ⟨votes, fed, hfed, alone, halone, hperceptron, hhistory⟩

end Overlay

end BranchPrediction
