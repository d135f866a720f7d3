import BranchPrediction.Proofs.Predictor.Conservation
import BranchPrediction.Proofs.Predictor.Recycling

/-!
# Normal form of a sequence of calls

Of the predictions between two resolved branches only the last counts, and without one a resolved
branch only moves the histories on. In `normalForm` the predictions that do not count are left out,
and orphans are plain moves of the histories. `Agrees` relates a run of the calls to a run of their
normal form, or of calls like it: everything but the pending prediction is the same, and that is too
whenever it is going to be resolved. One call keeps this (`Agrees.step`), and so does a run
(`Agrees.run`).
-/

namespace BranchPrediction

/-- Whether the first of the calls that predict or resolve is one that resolves. -/
def startsInResolve (calls : List Call) : Bool :=
  ((calls.filter fun call => !call.isQuiet).head?).any Call.isResolve

theorem startsInResolve_cons (call : Call) (calls : List Call) :
    startsInResolve (call :: calls) =
      if call.isQuiet then startsInResolve calls else call.isResolve := by
  unfold startsInResolve
  rw [List.filter_cons]
  cases h : call.isQuiet <;> simp

/-- What becomes of a call in the normal form, given the calls before and after it. -/
def Call.normal (before after : List Call) : Call → List Call
  | .predict pc => if startsInResolve after then [.predict pc] else []
  | .resolve pc target o kind =>
    if endsInPredict before then [.resolve pc target o kind] else [.advance pc o]
  | call => [call]

/-- The calls without the predictions that are never resolved, and with a move of the histories in
place of each resolved branch that has no prediction. -/
def normalForm (before : List Call) : List Call → List Call
  | [] => []
  | call :: after => call.normal before after ++ normalForm (before ++ [call]) after

/-- Calls that say the same, but for the target and the kind of a resolved branch, and for the
addresses that go into the histories unless they are `kept` there. -/
inductive Call.Like (kept : Bool) : Call → Call → Prop where
  | predict (pc : UInt64) : Like kept (.predict pc) (.predict pc)
  | resolve {pc pc' : UInt64} (h : kept = true → pc = pc') (target target' : UInt64) (o : Outcome)
      (kind kind' : Kind) : Like kept (.resolve pc target o kind) (.resolve pc' target' o kind')
  | advance {pc pc' : UInt64} (h : kept = true → pc = pc') (o : Outcome) :
      Like kept (.advance pc o) (.advance pc' o)
  | clearUseful : Like kept .clearUseful .clearUseful

theorem exists_append_of_forall₂ {α β : Type} {R : α → β → Prop} {l₁ l₂ : List α} {l : List β}
    (h : List.Forall₂ R (l₁ ++ l₂) l) :
    ∃ m₁ m₂, l = m₁ ++ m₂ ∧ List.Forall₂ R l₁ m₁ ∧ List.Forall₂ R l₂ m₂ := by
  induction l₁ generalizing l with
  | nil => exact ⟨[], l, rfl, .nil, h⟩
  | cons a l₁ ih =>
    rw [List.cons_append] at h
    cases h with
    | cons hab h =>
      obtain ⟨m₁, m₂, rfl, h₁, h₂⟩ := ih h
      exact ⟨_ :: m₁, m₂, rfl, .cons hab h₁, h₂⟩

theorem eq_singleton_of_forall₂ {α β : Type} {R : α → β → Prop} {a : α} {l : List β}
    (h : List.Forall₂ R [a] l) : ∃ b, R a b ∧ l = [b] := by
  cases h with
  | cons hab hnil =>
    cases hnil
    exact ⟨_, hab, rfl⟩

def Tally.core (t : Tally) : Tally :=
  { t with clock := 0, orphans := 0 }

namespace Tally

variable (t : Tally)

theorem core_countOverride (override hit : Bool) :
    (t.countOverride override hit).core = t.core.countOverride override hit := by
  cases override <;> rfl

theorem core_countProvider (provider : Provider) (hit : Bool) :
    (t.countProvider provider hit).core = t.core.countProvider provider hit := by
  cases provider <;> cases hit <;> rfl

theorem core_countAllocation (a : Allocation) :
    (t.countAllocation a).core = t.core.countAllocation a := by
  cases a <;> rfl

theorem core_countReset (reset : Bool) : (t.countReset reset).core = t.core.countReset reset := by
  cases reset <;> rfl

theorem core_tick : t.tick.core = t.core := rfl

end Tally

namespace Predictor

/-- A predictor without the pending prediction and without the counts of resolved branches and of
orphans. -/
def core (p : Predictor) : Predictor :=
  { p with pending := none, tally := p.tally.core }

variable {p q r : Predictor} {ctx : Context}

theorem lookup_core (p : Predictor) (pc : UInt64) : p.core.lookup pc = p.lookup pc := rfl

theorem core_advance (p : Predictor) (pc : UInt64) (o : Outcome) :
    (p.advance pc o).core = p.core.advance pc o := rfl

theorem core_clearUseful (p : Predictor) : p.clearUseful.core = p.core.clearUseful := rfl

theorem core_resolvedTally (t : Tally) (ctx : Context) (o : Outcome) (a : Allocation)
    (reset : Bool) :
    (resolvedTally t ctx o a reset).core = (resolvedTally t.core ctx o a reset).core := by
  unfold resolvedTally
  simp only [Tally.core_tick, Tally.core_countReset, Tally.core_countAllocation,
    Tally.core_countProvider, Tally.core_countOverride]
  rfl

theorem core_resolve_of_some (h : p.pending = some ctx) (pc target : UInt64) (o : Outcome)
    (kind : Kind) : (p.resolve pc target o kind).core =
      (({ p.core with pending := some ctx } : Predictor).resolve pc target o kind).core := by
  have hcore : ({ p.core with pending := some ctx } : Predictor).pending = some ctx := rfl
  rw [resolve_of_some o pc target kind h, resolve_of_some o pc target kind hcore]
  unfold core
  dsimp only
  rw [core_resolvedTally]
  rfl

theorem core_resolve_of_none (h : p.pending = none) (pc target : UInt64) (o : Outcome)
    (kind : Kind) : (p.resolve pc target o kind).core = p.core.advance pc o := by
  rw [resolve_of_none o pc target kind h]
  rfl

theorem advance_congr {pc pc' : UInt64} (h : p.path.isSome = true → pc = pc') (o : Outcome) :
    p.advance pc o = p.advance pc' o := by
  cases hp : p.path with
  | none =>
    unfold advance
    rw [hp]
    rfl
  | some h' => rw [h (by rw [hp]; rfl)]

theorem resolve_congr {pc pc' : UInt64} (h : p.path.isSome = true → pc = pc')
    (target target' : UInt64) (o : Outcome) (kind kind' : Kind) :
    p.resolve pc target o kind = p.resolve pc' target' o kind' := by
  unfold resolve
  rw [advance_congr h]

theorem path_isSome_step (p : Predictor) (call : Call) :
    (p.step call).path.isSome = p.path.isSome := by
  cases call with
  | resolve pc target o kind =>
    rw [step_resolve]
    cases hp : p.pending with
    | none => rw [resolve_of_none o pc target kind hp]; simp [advance]
    | some ctx => rw [resolve_of_some o pc target kind hp]; simp [advance]
  | advance pc o => simp [advance]
  | _ => rfl

theorem pending_isSome_step (p : Predictor) (call : Call) : (p.step call).pending.isSome =
    if call.isQuiet then p.pending.isSome else call.isPredict := by
  cases call with
  | resolve pc target o kind =>
    rw [step_resolve, pending_resolve]
    rfl
  | _ => rfl

/-! ## Two runs -/

/-- The states agree on all that the calls to come can tell apart. -/
structure Agrees (q r : Predictor) (after : List Call) : Prop where
  core : r.core = q.core
  pending : startsInResolve after = true → r.pending = q.pending

theorem lookup_eq_of_core (h : r.core = q.core) (pc : UInt64) : r.lookup pc = q.lookup pc := by
  rw [← lookup_core r, h, lookup_core]

theorem core_advance_eq_of_core (h : r.core = q.core) {pc pc' : UInt64}
    (hpc : q.path.isSome = true → pc = pc') (o : Outcome) :
    (r.advance pc' o).core = (q.advance pc o).core := by
  rw [advance_congr hpc, core_advance, core_advance, h]

theorem Agrees.resolve {after : List Call} {pc pc' target : UInt64} {o : Outcome} {kind : Kind}
    (h : Agrees q r (.resolve pc target o kind :: after)) (hctx : q.pending = some ctx)
    (hpc : q.path.isSome = true → pc = pc') (target' : UInt64) (kind' : Kind) :
    Agrees (q.resolve pc target o kind) (r.resolve pc' target' o kind') after := by
  have hr : r.pending = some ctx := (h.pending (startsInResolve_cons ..)).trans hctx
  refine ⟨?_, fun _ => ?_⟩
  · rw [resolve_congr hpc target target' o kind kind', core_resolve_of_some hr,
      core_resolve_of_some hctx, h.core]
  · rw [pending_resolve, pending_resolve]

/-- An orphan in the one run moves the histories on in the other. -/
theorem Agrees.orphan {after : List Call} {pc pc' target : UInt64} {o : Outcome} {kind : Kind}
    (h : Agrees q r (.resolve pc target o kind :: after)) (hctx : q.pending = none)
    (hpc : q.path.isSome = true → pc = pc') :
    Agrees (q.resolve pc target o kind) (r.advance pc' o) after := by
  have hr : r.pending = none := (h.pending (startsInResolve_cons ..)).trans hctx
  refine ⟨?_, fun _ => ?_⟩
  · rw [core_resolve_of_none hctx, ← core_advance]
    exact core_advance_eq_of_core h.core hpc o
  · rw [pending_resolve]
    exact hr

/-- A call in one run, and what calls like its normal form do in the other: the states agree again,
and the same is predicted, unless the prediction is left out. -/
theorem Agrees.step {before after done : List Call} {call : Call}
    (h : Agrees q r (call :: after)) (hbefore : endsInPredict before = q.pending.isSome)
    (hlike : List.Forall₂ (Call.Like q.path.isSome) (call.normal before after) done) :
    Agrees (q.step call) (r.run done) after ∧
      r.allPredictions done = q.predicted startsInResolve after call := by
  cases call with
  | predict pc =>
    by_cases hkept : startsInResolve after = true
    · rw [Call.normal, if_pos hkept] at hlike
      obtain ⟨_, hcall, rfl⟩ := eq_singleton_of_forall₂ hlike
      cases hcall
      have hlookup := lookup_eq_of_core h.core pc
      refine ⟨⟨h.core, fun _ => congrArg some hlookup⟩, ?_⟩
      simp only [allPredictions_cons, predicted, hkept, hlookup, if_true]
      rfl
    · rw [Call.normal, if_neg hkept] at hlike
      cases hlike
      refine ⟨⟨h.core, fun hs => absurd hs hkept⟩, ?_⟩
      rw [predicted, if_neg hkept]
      rfl
  | resolve pc target o kind =>
    cases hctx : q.pending with
    | none =>
      rw [Call.normal, hbefore, hctx] at hlike
      obtain ⟨_, hcall, rfl⟩ := eq_singleton_of_forall₂ hlike
      cases hcall with
      | advance hpc => exact ⟨h.orphan hctx hpc, rfl⟩
    | some ctx =>
      rw [Call.normal, hbefore, hctx] at hlike
      obtain ⟨_, hcall, rfl⟩ := eq_singleton_of_forall₂ hlike
      cases hcall with
      | resolve hpc _ target' _ _ kind' => exact ⟨h.resolve hctx hpc target' kind', rfl⟩
  | advance pc o =>
    obtain ⟨_, hcall, rfl⟩ := eq_singleton_of_forall₂ hlike
    cases hcall with
    | advance hpc =>
      refine ⟨⟨core_advance_eq_of_core h.core hpc o, fun hs => ?_⟩, rfl⟩
      exact h.pending ((startsInResolve_cons ..).trans hs)
  | clearUseful =>
    obtain ⟨_, hcall, rfl⟩ := eq_singleton_of_forall₂ hlike
    cases hcall
    refine ⟨⟨?_, fun hs => h.pending ((startsInResolve_cons ..).trans hs)⟩, rfl⟩
    rw [step_clearUseful, run_cons, run_nil, step_clearUseful, core_clearUseful, core_clearUseful,
      h.core]

/-- The run of the normal form, or of calls like it, makes the predictions that are resolved and
ends in the same state but for the pending prediction. -/
theorem Agrees.run {before calls done : List Call} (h : Agrees q r calls)
    (hbefore : endsInPredict before = q.pending.isSome)
    (hlike : List.Forall₂ (Call.Like q.path.isSome) (normalForm before calls) done) :
    r.allPredictions done = q.predictions startsInResolve calls ∧
      (r.run done).core = (q.run calls).core := by
  induction calls generalizing before q r done with
  | nil =>
    cases hlike
    exact ⟨rfl, h.core⟩
  | cons call calls ih =>
    obtain ⟨now, later, rfl, hnow, hlater⟩ := exists_append_of_forall₂ hlike
    obtain ⟨hstep, hpredicted⟩ := h.step hbefore hnow
    rw [← path_isSome_step q call] at hlater
    have hbefore' : endsInPredict (before ++ [call]) = (q.step call).pending.isSome := by
      rw [endsInPredict_concat, pending_isSome_step, hbefore]
    obtain ⟨hrest, hcore⟩ := ih hstep hbefore' hlater
    refine ⟨?_, ?_⟩
    · rw [allPredictions_append, hpredicted, hrest]
      rfl
    · rw [run_append, run_cons]
      exact hcore

/-- Calls like the normal form of a sequence of calls make the predictions that are resolved in the
sequence, and end in the same state but for the pending prediction and the counts of resolved
branches and of orphans. Addresses in the histories matter only with a path history. The contexts
may all share one place, whatever is there at the start. -/
theorem normalForm_run {c : Config} (hc : c.validate = .ok ()) :
    ∃ p, build c = .ok p ∧ ∀ calls,
      (∀ done, List.Forall₂ (Call.Like c.path.isSome) (normalForm [] calls) done →
        p.allPredictions done = p.predictions startsInResolve calls ∧
        (p.run done).core = (p.run calls).core) ∧
      ∀ old, ((Recycler.mk p old false).run calls).view = p.run calls := by
  have hv := Config.validate_eq_ok.1 hc
  refine ⟨ofConfig c, build_eq_ok.2 ⟨hv, rfl⟩, fun calls => ⟨fun done hlike => ?_, fun old => ?_⟩⟩
  · have hagrees : Agrees (ofConfig c) (ofConfig c) calls := ⟨rfl, fun _ => rfl⟩
    have hbefore : endsInPredict [] = (ofConfig c).pending.isSome := rfl
    have hpath : (ofConfig c).path.isSome = c.path.isSome := by simp [ofConfig]
    rw [← hpath] at hlike
    exact hagrees.run hbefore hlike
  · rw [Recycler.view_run]
    rfl

/-- The first prediction is overwritten, the second branch is an orphan, and the last prediction is
never resolved. Without a path history the addresses may change too. -/
theorem normalForm_run_small : ∃ p, build { Config.small with path := none } = .ok p ∧
    let calls := [.predict 6, .predict 9, .resolve 9 0 .taken .directBranch,
      .resolve 5 0 .notTaken .ret, .clearUseful, .predict 3]
    let done := [.predict 9, .resolve 1 77 .taken .ret, .advance 2 .notTaken, .clearUseful]
    p.allPredictions done = [(p.predict 6).lookup 9] ∧ (p.run done).core = (p.run calls).core := by
  obtain ⟨p, hb, h⟩ := normalForm_run (c := { Config.small with path := none }) (by decide)
  obtain ⟨hrun, -⟩ := h [.predict 6, .predict 9, .resolve 9 0 .taken .directBranch,
    .resolve 5 0 .notTaken .ret, .clearUseful, .predict 3]
  have hlike : List.Forall₂ (Call.Like false)
      [.predict 9, .resolve 9 0 .taken .directBranch, .advance 5 .notTaken, .clearUseful]
      [.predict 9, .resolve 1 77 .taken .ret, .advance 2 .notTaken, .clearUseful] :=
    .cons (.predict 9) (.cons (.resolve (by decide) ..)
      (.cons (.advance (by decide) _) (.cons .clearUseful .nil)))
  exact ⟨p, hb, hrun _ hlike⟩

end Predictor

end BranchPrediction
