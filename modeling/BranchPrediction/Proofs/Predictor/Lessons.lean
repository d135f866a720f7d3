import BranchPrediction.Proofs.Overlay.Lessons
import BranchPrediction.Proofs.Predictor.NormalForm

/-!
# What a run teaches

A resolved prediction is a lesson: the address that was predicted and the outcome. `learned` lists
the lessons of a run, and `lessons` reads the same list off the calls alone (`learned_eq_lessons`).
The overlay learns from nothing else. The vote that a pending prediction keeps is the one that the
overlay still gives (`VoteStands`), so a run leaves the overlay as the lessons by themselves would
(`overlay_eq_learnAll`, `overlay_run`).
-/

namespace BranchPrediction

/-- The address of the pending prediction after a call, given the one before it. -/
def Call.awaits (waiting : Option UInt64) : Call → Option UInt64
  | .predict pc => some pc
  | .resolve .. => none
  | _ => waiting

/-- The lesson of a call, given the address of the pending prediction. -/
def Call.lesson? (waiting : Option UInt64) : Call → Option (UInt64 × Outcome)
  | .resolve _ _ o _ => waiting.map (·, o)
  | _ => none

def lessonsFrom (waiting : Option UInt64) : List Call → List (UInt64 × Outcome)
  | [] => []
  | call :: after => (call.lesson? waiting).toList ++ lessonsFrom (call.awaits waiting) after

def lessons (calls : List Call) : List (UInt64 × Outcome) :=
  lessonsFrom none calls

theorem lessonsFrom_append (waiting : Option UInt64) (cs ds : List Call) :
    lessonsFrom waiting (cs ++ ds)
      = lessonsFrom waiting cs ++ lessonsFrom (cs.foldl Call.awaits waiting) ds := by
  induction cs generalizing waiting with
  | nil => rfl
  | cons c cs ih =>
    rw [List.cons_append, lessonsFrom, lessonsFrom, ih, List.append_assoc]
    rfl

theorem isSome_awaits (waiting : Option UInt64) (call : Call) : (call.awaits waiting).isSome =
    if call.isQuiet then waiting.isSome else call.isPredict := by
  cases call <;> rfl

section
variable {kept : Bool} {waiting waiting' : Option UInt64}

/-- Calls like the normal form of a call teach the same, and leave the same prediction pending if it
is going to be resolved. -/
theorem lessonsFrom_normal {before after done : List Call} {call : Call}
    (hbefore : endsInPredict before = waiting.isSome)
    (h : startsInResolve (call :: after) = true → waiting' = waiting)
    (hlike : List.Forall₂ (Call.Like kept) (call.normal before after) done) :
    lessonsFrom waiting' done = (call.lesson? waiting).toList ∧
      (startsInResolve after = true → done.foldl Call.awaits waiting' = call.awaits waiting) := by
  rw [startsInResolve_cons] at h
  cases call with
  | predict pc =>
    by_cases hkept : startsInResolve after = true
    · rw [Call.normal, if_pos hkept] at hlike
      obtain ⟨_, hcall, rfl⟩ := eq_singleton_of_forall₂ hlike
      cases hcall
      exact ⟨rfl, fun _ => rfl⟩
    · rw [Call.normal, if_neg hkept] at hlike
      cases hlike
      exact ⟨rfl, fun hs => absurd hs hkept⟩
  | resolve pc target o kind =>
    obtain rfl := h rfl
    rw [Call.normal, hbefore] at hlike
    cases waiting' with
    | none =>
      obtain ⟨_, hcall, rfl⟩ := eq_singleton_of_forall₂ hlike
      cases hcall
      exact ⟨rfl, fun _ => rfl⟩
    | some pc' =>
      obtain ⟨_, hcall, rfl⟩ := eq_singleton_of_forall₂ hlike
      cases hcall
      exact ⟨rfl, fun _ => rfl⟩
  | advance pc o =>
    obtain ⟨_, hcall, rfl⟩ := eq_singleton_of_forall₂ hlike
    cases hcall
    exact ⟨rfl, h⟩
  | clearUseful =>
    obtain ⟨_, hcall, rfl⟩ := eq_singleton_of_forall₂ hlike
    cases hcall
    exact ⟨rfl, h⟩

/-- Predictions that are not resolved, orphans, and the addresses, targets and kinds of resolved
branches make no difference to the lessons. -/
theorem lessonsFrom_normalForm {before calls done : List Call}
    (hbefore : endsInPredict before = waiting.isSome)
    (h : startsInResolve calls = true → waiting' = waiting)
    (hlike : List.Forall₂ (Call.Like kept) (normalForm before calls) done) :
    lessonsFrom waiting' done = lessonsFrom waiting calls := by
  induction calls generalizing before waiting waiting' done with
  | nil =>
    cases hlike
    rfl
  | cons call calls ih =>
    obtain ⟨now, later, rfl, hnow, hlater⟩ := exists_append_of_forall₂ hlike
    obtain ⟨hlesson, hawaits⟩ := lessonsFrom_normal hbefore h hnow
    have hbefore' : endsInPredict (before ++ [call]) = (call.awaits waiting).isSome := by
      rw [endsInPredict_concat, isSome_awaits, hbefore]
    rw [lessonsFrom_append, hlesson, ih hbefore' hawaits hlater]
    rfl

end

/-! ## Lessons of a run -/

namespace Predictor

/-- The lesson of a call: the address of the prediction that it resolves, and the outcome. -/
def lesson? (p : Predictor) : Call → Option (UInt64 × Outcome)
  | .resolve _ _ o _ => p.pending.map fun ctx => (ctx.pc, o)
  | _ => none

def learned (p : Predictor) : List Call → List (UInt64 × Outcome)
  | [] => []
  | call :: after => (p.lesson? call).toList ++ (p.step call).learned after

variable {p : Predictor}

theorem lesson?_eq (p : Predictor) (call : Call) :
    p.lesson? call = call.lesson? (p.pending.map Context.pc) := by
  cases call with
  | resolve pc target o kind => rw [lesson?, Call.lesson?, Option.map_map]; rfl
  | _ => rfl

theorem map_pc_pending_step (p : Predictor) (call : Call) :
    (p.step call).pending.map Context.pc = call.awaits (p.pending.map Context.pc) := by
  cases call with
  | resolve pc target o kind => rw [step_resolve, pending_resolve]; rfl
  | _ => rfl

theorem learned_eq_lessonsFrom (p : Predictor) (calls : List Call) :
    p.learned calls = lessonsFrom (p.pending.map Context.pc) calls := by
  induction calls generalizing p with
  | nil => rfl
  | cons call calls ih =>
    rw [learned, lessonsFrom, ih, lesson?_eq, map_pc_pending_step]

theorem learned_eq_lessons (hp : p.pending = none) (calls : List Call) :
    p.learned calls = lessons calls := by
  rw [learned_eq_lessonsFrom, hp]
  rfl

/-! ## The overlay -/

/-- The overlay would still vote as it did for the pending prediction. -/
def VoteStands (p : Predictor) : Prop :=
  ∀ ctx ∈ p.pending, ctx.vote = p.overlay.map (·.vote ctx.pc)

theorem VoteStands.overlay_resolve (h : p.VoteStands) (pc target : UInt64) (o : Outcome)
    (kind : Kind) : (p.resolve pc target o kind).overlay =
      p.overlay.map (·.learnAll (p.lesson? (.resolve pc target o kind)).toList) := by
  unfold lesson?
  cases hp : p.pending with
  | none =>
    rw [resolve_of_none o pc target kind hp]
    exact (Option.map_id' ..).symm
  | some ctx =>
    rw [resolve_of_some o pc target kind hp]
    dsimp only [Option.map_some, Option.toList_some]
    have hvote := h ctx hp
    unfold trainedOverlay
    rw [hvote]
    cases p.overlay <;> rfl

theorem VoteStands.overlay_step (h : p.VoteStands) (call : Call) :
    (p.step call).overlay = p.overlay.map (·.learnAll (p.lesson? call).toList) := by
  cases call with
  | resolve pc target o kind => exact h.overlay_resolve pc target o kind
  | _ => exact (Option.map_id' ..).symm

theorem VoteStands.step (h : p.VoteStands) (call : Call) : (p.step call).VoteStands := by
  cases call with
  | predict pc =>
    intro ctx hctx
    obtain rfl := Option.some.inj hctx
    rfl
  | resolve pc target o kind =>
    intro ctx hctx
    rw [step_resolve, pending_resolve] at hctx
    cases hctx
  | advance pc o => exact h
  | clearUseful => exact h

theorem VoteStands.overlay_eq_learnAll (h : p.VoteStands) (calls : List Call) :
    (p.run calls).overlay = p.overlay.map (·.learnAll (p.learned calls)) := by
  induction calls generalizing p with
  | nil => exact (Option.map_id' ..).symm
  | cons call calls ih =>
    rw [run_cons, ih (h.step call), h.overlay_step, Option.map_map, learned]
    congr 1
    funext o
    exact (o.learnAll_append ..).symm

/-- The overlay of a predictor is after any run what a fresh overlay by itself becomes from the
lessons of the run, and each local register holds the outcomes of the lessons at its addresses. The
lessons are a matter of the calls alone: the predictions that are not resolved, the orphans, and the
addresses that are given for resolved branches make no difference, and neither does any other part
of the configuration. -/
theorem overlay_run {c : Config} {oc : OverlayConfig} (hc : c.validate = .ok ())
    (ho : c.overlay = some oc) :
    ∃ p, build c = .ok p ∧ ∃ fresh, Overlay.build oc = .ok fresh ∧ ∀ calls,
      (p.run calls).overlay = some (fresh.learnAll (p.learned calls)) ∧
      (∀ s < oc.localRegisters, ∃ h, (fresh.learnAll (p.learned calls)).histories[s]? = some h ∧
        ∀ k < 32, h.getLsbD k = oc.localBit (p.learned calls).reverse s k) ∧
      p.learned calls = lessons calls ∧
      (∀ done, List.Forall₂ (Call.Like false) (normalForm [] calls) done →
        lessons done = lessons calls) ∧
      ∀ c', c'.validate = .ok () → c'.overlay = some oc → ∃ p', build c' = .ok p' ∧
        ∀ calls', lessons calls' = lessons calls →
          (p'.run calls').overlay = (p.run calls).overlay := by
  have hv := Config.validate_eq_ok.1 hc
  have hoc : oc.validate = .ok () := OverlayConfig.validate_eq_ok.2 (hv.overlay oc ho)
  -- the same for every configuration with this overlay
  have hrun : ∀ c' : Config, c'.overlay = some oc → ∀ calls,
      ((ofConfig c').run calls).overlay
        = some ((Overlay.ofConfig oc).learnAll (lessons calls)) := by
    intro c' ho' calls
    have hstands : (ofConfig c').VoteStands := fun ctx hctx => by cases hctx
    rw [hstands.overlay_eq_learnAll, learned_eq_lessons rfl]
    simp [ofConfig, ho']
  refine ⟨ofConfig c, build_eq_ok.2 ⟨hv, rfl⟩, Overlay.ofConfig oc, ?_, fun calls => ?_⟩
  · rw [Overlay.build, hoc]
    rfl
  rw [learned_eq_lessons rfl]
  refine ⟨hrun c ho calls, fun s hs => ?_, rfl, fun done hlike => ?_, fun c' hc' ho' => ?_⟩
  · have hholds := (Overlay.holdsLog_ofConfig oc).learnAll (lessons calls)
    rw [List.append_nil] at hholds
    have hsize := hholds.size
    have hbits := hholds.bits
    rw [Overlay.config_learnAll] at hsize hbits
    have hlt : s < ((Overlay.ofConfig oc).learnAll (lessons calls)).histories.size :=
      hsize.symm ▸ hs
    exact ⟨_, Array.getElem?_eq_getElem hlt, hbits s _ (Array.getElem?_eq_getElem hlt)⟩
  · exact lessonsFrom_normalForm rfl (fun _ => rfl) hlike
  · refine ⟨ofConfig c', build_eq_ok.2 ⟨Config.validate_eq_ok.1 hc', rfl⟩, fun calls' h => ?_⟩
    rw [hrun c' ho', hrun c ho, h]

/-- Only the second prediction is resolved, and the lesson is at its address, whatever address the
resolved branch is given. The local register of that address holds the outcome. -/
theorem overlay_run_small :
    ∃ p, build { Config.small with overlay := some ⟨2, 2, 3, 2, 2, 1⟩ } = .ok p ∧
      ∃ fresh, Overlay.build ⟨2, 2, 3, 2, 2, 1⟩ = .ok fresh ∧
        let calls := [.predict 6, .predict 9, .clearUseful, .resolve 6 0 .taken .directBranch,
          .resolve 8 0 .notTaken .ret, .predict 3]
        (p.run calls).overlay = some (fresh.learnAll [(9, .taken)]) ∧
          (∃ h, (fresh.learnAll [(9, .taken)]).histories[1]? = some h ∧ h.getLsbD 0 = true) ∧
          ∃ p', build ⟨⟨⟨2, none⟩, 4⟩, [⟨2, 3, 2, 1, ⟨2, none⟩⟩], some ⟨2, 2, 3, 2, 2, 1⟩, none, 7, 5⟩
              = .ok p' ∧
            (p'.run [.predict 9, .resolve 1 77 .taken .ret]).overlay = (p.run calls).overlay := by
  obtain ⟨p, hb, fresh, hfresh, h⟩ :=
    overlay_run (c := { Config.small with overlay := some ⟨2, 2, 3, 2, 2, 1⟩ }) (by decide) rfl
  obtain ⟨hoverlay, hbits, hlessons, -, hother⟩ := h [.predict 6, .predict 9, .clearUseful,
    .resolve 6 0 .taken .directBranch, .resolve 8 0 .notTaken .ret, .predict 3]
  obtain ⟨p', hb', hsame⟩ := hother
    ⟨⟨⟨2, none⟩, 4⟩, [⟨2, 3, 2, 1, ⟨2, none⟩⟩], some ⟨2, 2, 3, 2, 2, 1⟩, none, 7, 5⟩ (by decide) rfl
  rw [hlessons] at hoverlay hbits
  obtain ⟨g, hg, hbit⟩ := hbits 1 (by decide)
  exact ⟨p, hb, fresh, hfresh, hoverlay, ⟨g, hg, (hbit 0 (by decide)).trans (by decide)⟩, p', hb',
    hsame _ rfl⟩

end Predictor

end BranchPrediction
