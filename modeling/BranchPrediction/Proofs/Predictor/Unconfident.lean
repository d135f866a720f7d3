import BranchPrediction.Proofs.Overlay.Outputs
import BranchPrediction.Proofs.Predictor.Pending

/-!
# Overlays that are never confident

The weights have a range, so the output of a perceptron has a bound (`natAbs_vote_le`). A threshold
that is no less keeps the overlay from ever overruling the tables, and then a predictor learns the
same with it as without: `withoutOverlay` forgets the overlay, and it does not matter whether it is
forgotten before a call or after (`withoutOverlay_step`).
-/

namespace BranchPrediction

/-- The greatest magnitude of an output: each weight that is paired with a bit of local history, and
the bias, at the lowest end of their range. -/
def OverlayConfig.outputBound (c : OverlayConfig) : Nat :=
  (min c.weights c.localLength + 1) * 2 ^ (c.weightBits - 1)

theorem Perceptron.Fits.natAbs_output_le {c : OverlayConfig} {p : Perceptron} (h : p.Fits c)
    {input : List Bool} (hi : input.length = c.inputs) :
    (p.output input).natAbs ≤ c.outputBound := by
  have hout := h.inRange.natAbs_output_le input
  have hlen : min input.length p.weights.length = min c.weights c.localLength := by
    rw [hi, h.length]
    unfold OverlayConfig.inputs
    omega
  unfold Perceptron.outputBound at hout
  rw [hlen] at hout
  exact hout

theorem Overlay.WellFormed.natAbs_vote_le {o : Overlay} (h : o.WellFormed) (pc : UInt64) :
    (o.vote pc).output.natAbs ≤ o.config.outputBound := by
  have hfits : ∀ i, (o.perceptron i).Fits o.config := by
    intro i
    unfold Overlay.perceptron
    cases hi : o.perceptrons[i]? with
    | none => exact Perceptron.fits_zero _
    | some p => exact h.perceptrons p (Array.mem_of_getElem? hi)
  exact (hfits _).natAbs_output_le (by simp [Overlay.inputOf])

/-! ## Without the overlay -/

def Config.withoutOverlay (c : Config) : Config := { c with overlay := none }

def Config.Unconfident (c : Config) : Prop :=
  ∀ oc ∈ c.overlay, (oc.outputBound : Int) ≤ oc.threshold

theorem Config.Valid.withoutOverlay {c : Config} (h : c.Valid) : c.withoutOverlay.Valid :=
  { h with overlay := fun _ ho => by cases ho }

def Context.withoutVote (ctx : Context) : Context := { ctx with vote := none }

namespace Predictor

/-- The state without the overlay and without what it said of the pending prediction. -/
def withoutOverlay (p : Predictor) : Predictor :=
  { p with
    config := p.config.withoutOverlay
    overlay := none
    pending := p.pending.map Context.withoutVote }

variable {q : Predictor} {ctx : Context}

theorem WellFormed.finalOutcome_eq (h : q.WellFormed) (hq : q.config.Unconfident) (pc : UInt64)
    (o : Outcome) : q.finalOutcome (q.overlay.map (·.vote pc)) o = o := by
  unfold finalOutcome
  cases ho : q.overlay with
  | none => rfl
  | some v =>
    have hmem : v.config ∈ q.config.overlay := by
      rw [← h.overlay_config, ho]
      rfl
    have hbound := (h.overlay v ho).natAbs_vote_le pc
    have hthreshold := hq _ hmem
    have hconfident : (v.vote pc).isConfident v.config.threshold = false := by
      unfold Vote.isConfident
      rw [decide_eq_false_iff_not]
      omega
    dsimp only [Option.map_some]
    rw [hconfident]
    rfl

theorem WellFormed.lookup_outcome (h : q.WellFormed) (hq : q.config.Unconfident) (pc : UInt64) :
    (q.lookup pc).outcome = (q.lookup pc).providerOutcome :=
  h.finalOutcome_eq hq pc _

theorem WellFormed.lookup_withoutOverlay (h : q.WellFormed) (hq : q.config.Unconfident)
    (pc : UInt64) : q.withoutOverlay.lookup pc = (q.lookup pc).withoutVote := by
  have houtcome := h.lookup_outcome hq pc
  unfold Context.withoutVote
  rw [houtcome]
  rfl

theorem resolvedTally_withoutVote (t : Tally) (h : ctx.outcome = ctx.providerOutcome) (o : Outcome)
    (a : Allocation) (reset : Bool) :
    resolvedTally t ctx.withoutVote o a reset = resolvedTally t ctx o a reset := by
  have hover : ctx.isOverride = false := by
    unfold Context.isOverride
    rw [h, bne_self_eq_false, Bool.and_false]
  have hover' : ctx.withoutVote.isOverride = false := rfl
  unfold resolvedTally
  rw [hover, hover']
  rfl

/-- A prediction that the overlay did not change teaches the tables the same without it. -/
theorem withoutOverlay_resolve (h : ∀ ctx ∈ q.pending, ctx.outcome = ctx.providerOutcome)
    (pc target : UInt64) (o : Outcome) (kind : Kind) :
    (q.resolve pc target o kind).withoutOverlay = q.withoutOverlay.resolve pc target o kind := by
  cases hp : q.pending with
  | none =>
    have hp' : q.withoutOverlay.pending = none := by rw [withoutOverlay, hp]; rfl
    rw [resolve_of_none o pc target kind hp, resolve_of_none o pc target kind hp']
    rfl
  | some ctx =>
    have hp' : q.withoutOverlay.pending = some ctx.withoutVote := by rw [withoutOverlay, hp]; rfl
    rw [resolve_of_some o pc target kind hp, resolve_of_some o pc target kind hp',
      resolvedTally_withoutVote _ (h ctx hp)]
    rfl

/-- Forgetting the overlay before a call or after it comes to the same. -/
theorem WellFormed.withoutOverlay_step (hw : q.WellFormed) (hq : q.config.Unconfident)
    (h : ∀ ctx ∈ q.pending, ctx.outcome = ctx.providerOutcome) (call : Call) :
    (q.step call).withoutOverlay = q.withoutOverlay.step call := by
  cases call with
  | predict pc =>
    rw [step_predict, step_predict]
    unfold Predictor.predict
    rw [hw.lookup_withoutOverlay hq]
    rfl
  | resolve pc target o kind => exact withoutOverlay_resolve h pc target o kind
  | advance pc o => rfl
  | clearUseful => rfl

variable {c : Config}

theorem unconfident_config_run (hq : c.Unconfident) (calls : List Call) :
    ((ofConfig c).run calls).config.Unconfident := by
  rw [config_run]
  exact hq

theorem outcome_pending_run (hc : c.Valid) (hq : c.Unconfident) (calls : List Call) :
    ∀ ctx ∈ ((ofConfig c).run calls).pending, ctx.outcome = ctx.providerOutcome := by
  intro ctx hp
  obtain ⟨before, pc, since, -, -, rfl⟩ := pending_run rfl hp
  exact ((wellFormed_ofConfig hc).run before).lookup_outcome (unconfident_config_run hq before) pc

theorem withoutOverlay_run (hc : c.Valid) (hq : c.Unconfident) (calls : List Call) :
    ((ofConfig c).run calls).withoutOverlay = (ofConfig c.withoutOverlay).run calls := by
  induction calls using List.reverseRecOn with
  | nil => rfl
  | append_singleton calls call ih =>
    have hw := (wellFormed_ofConfig hc).run calls
    rw [run_concat, run_concat, ← ih]
    exact hw.withoutOverlay_step (unconfident_config_run hq calls)
      (outcome_pending_run hc hq calls) call

theorem allPredictions_withoutOverlay (hc : c.Valid) (hq : c.Unconfident) (calls : List Call) :
    (ofConfig c.withoutOverlay).allPredictions calls
      = ((ofConfig c).allPredictions calls).map Context.withoutVote := by
  induction calls using List.reverseRecOn with
  | nil => rfl
  | append_singleton calls call ih =>
    rw [allPredictions_append, allPredictions_append, List.map_append, ih,
      ← withoutOverlay_run hc hq]
    congr 1
    cases call with
    | predict pc =>
      have hw := (wellFormed_ofConfig hc).run calls
      simp only [allPredictions_cons, predicted, if_true]
      rw [hw.lookup_withoutOverlay (unconfident_config_run hq calls)]
      rfl
    | _ => rfl

/-- Every output is within the bound. If the threshold is no less, the predictor and the one without
an overlay predict the same, and the same is in their tables, their histories, their generators and
their tallies after every run. -/
theorem unconfident_run {oc : OverlayConfig} (hc : c.validate = .ok ()) (ho : c.overlay = some oc) :
    ∃ p, build c = .ok p ∧
      (∀ calls, (∃ o, (p.run calls).overlay = some o ∧
          ∀ pc, (o.vote pc).output.natAbs ≤ oc.outputBound) ∧
        ∀ ctx ∈ (p.run calls).pending, ∀ v ∈ ctx.vote, v.output.natAbs ≤ oc.outputBound) ∧
      ((oc.outputBound : Int) ≤ oc.threshold → ∃ p', build { c with overlay := none } = .ok p' ∧
        ∀ calls, let q := p.run calls; let q' := p'.run calls
          (p.allPredictions calls).map Context.outcome
            = (p'.allPredictions calls).map Context.outcome ∧
          q.base = q'.base ∧ q.tables = q'.tables ∧ q.global = q'.global ∧ q.path = q'.path ∧
          q.generator = q'.generator ∧ q.tally = q'.tally) := by
  have hv := Config.validate_eq_ok.1 hc
  have hvote : ∀ calls, ∃ o, ((ofConfig c).run calls).overlay = some o ∧
      ∀ pc, (o.vote pc).output.natAbs ≤ oc.outputBound := by
    intro calls
    have hw := (wellFormed_ofConfig hv).run calls
    obtain ⟨o, hsome, rfl⟩ := Option.map_eq_some_iff.1 ((overlay_config_run hv calls).trans ho)
    exact ⟨o, hsome, (hw.overlay o hsome).natAbs_vote_le⟩
  refine ⟨ofConfig c, build_eq_ok.2 ⟨hv, rfl⟩, fun calls => ⟨hvote calls, ?_⟩, fun hle => ?_⟩
  · intro ctx hp v hctx
    obtain ⟨before, pc, since, -, -, rfl⟩ := pending_run rfl hp
    obtain ⟨o, hsome, hbound⟩ := hvote before
    simp only [lookup, hsome, Option.map_some] at hctx
    obtain rfl := Option.some.inj hctx
    exact hbound pc
  · have hq : c.Unconfident := by
      intro oc' hoc'
      obtain rfl := Option.some.inj (hoc'.symm.trans ho)
      exact hle
    refine ⟨ofConfig c.withoutOverlay, build_eq_ok.2 ⟨hv.withoutOverlay, rfl⟩, fun calls => ?_⟩
    dsimp only
    rw [allPredictions_withoutOverlay hv hq, ← withoutOverlay_run hv hq, List.map_map]
    exact ⟨rfl, rfl, rfl, rfl, rfl, rfl, rfl⟩

/-- Two weights and a bias of three bits give outputs up to 12, which is no more than the
threshold. -/
theorem unconfident_run_small :
    ∃ p, build { Config.small with overlay := some ⟨1, 2, 3, 1, 2, 12⟩ } = .ok p ∧
      ∃ p', build { Config.small with overlay := none } = .ok p' ∧
        let calls := [.predict 6, .resolve 6 0 .taken .directBranch, .predict 9, .clearUseful,
          .resolve 9 0 .notTaken .directBranch, .resolve 9 0 .taken .ret, .predict 6]
        (∃ o, (p.run calls).overlay = some o ∧ (o.vote 6).output.natAbs ≤ 12) ∧
          (p.run calls).tables = (p'.run calls).tables ∧
          (p.run calls).tally = (p'.run calls).tally := by
  obtain ⟨p, hb, hvote, h⟩ :=
    unconfident_run (c := { Config.small with overlay := some ⟨1, 2, 3, 1, 2, 12⟩ }) (by decide) rfl
  obtain ⟨p', hb', hsame⟩ := h (by decide)
  obtain ⟨-, -, htables, -, -, -, htally⟩ := hsame [.predict 6,
    .resolve 6 0 .taken .directBranch, .predict 9, .clearUseful,
    .resolve 9 0 .notTaken .directBranch, .resolve 9 0 .taken .ret, .predict 6]
  obtain ⟨⟨o, hsome, hbound⟩, -⟩ := hvote [.predict 6, .resolve 6 0 .taken .directBranch,
    .predict 9, .clearUseful, .resolve 9 0 .notTaken .directBranch, .resolve 9 0 .taken .ret,
    .predict 6]
  exact ⟨p, hb, p', hb', ⟨o, hsome, hbound 6⟩, htables, htally⟩

end Predictor

end BranchPrediction
