import BranchPrediction.Predictor.Event
import BranchPrediction.Proofs.Predictor.Footprint
import BranchPrediction.Proofs.Predictor.ValidEntries

/-!
# What events tell

Events are computed beside the calls that they belong to. `Event.Tells` says what an event tells of
the states before and after its call, and `tells_stepEvents` that this is so in every state of a
run. The tally counts three of the things that are reported; `Accounted` relates its counts to a
list of events, first for one call and then for a run. Main statement: `reports_run`.
-/

namespace BranchPrediction

namespace Event

def isAllocated : Event → Bool
  | allocated .. => true
  | _ => false

def isReset : Event → Bool
  | reset .. => true
  | _ => false

def isOrphan : Event → Bool
  | orphan .. => true
  | _ => false

def isPredicted : Event → Bool
  | predicted .. => true
  | _ => false

/-- What an event tells of a call that is made in state `p`. -/
def Tells (p : Predictor) (call : Call) : Event → Prop
  | built .. => False
  | predicted pc provider alternate outcome =>
    call = .predict pc ∧ ∃ ctx, (p.step call).pending = some ctx ∧ ctx.pc = pc ∧
      ctx.provider = provider ∧ ctx.alternate = alternate ∧ ctx.outcome = outcome
  | allocated pc i slot =>
    ∃ ctx e e', p.pending = some ctx ∧ ctx.pc = pc ∧ ctx.slots[i]? = some slot ∧
      entryIn p.tables i slot.index = some e ∧ e.tag ≠ some slot.tag ∧
      entryIn (p.step call).tables i slot.index = some e' ∧ e'.tag = some slot.tag
  | reset clock =>
    clock = p.tally.clock ∧ ∀ t ∈ (p.step call).tables, ∀ e ∈ t.entries, e.useful.value = 0
  | orphan pc => p.pending = none ∧ ∃ target o kind, call = .resolve pc target o kind

end Event

def Context.event (ctx : Context) : Event :=
  .predicted ctx.pc ctx.provider ctx.alternate ctx.outcome

/-- The tally moved from `t` to `u` by what the events report. -/
structure Accounted (es : List Event) (t u : Tally) : Prop where
  allocations : u.allocations = t.allocations + es.countP Event.isAllocated
  resets : u.resets = t.resets + es.countP Event.isReset
  orphans : u.orphans = t.orphans + es.countP Event.isOrphan

theorem accounted_nil (t : Tally) : Accounted [] t t :=
  ⟨rfl, rfl, rfl⟩

theorem Accounted.append {es fs : List Event} {t u v : Tally} (h : Accounted es t u)
    (h' : Accounted fs u v) : Accounted (es ++ fs) t v := by
  constructor
  · rw [h'.allocations, h.allocations, List.countP_append, Nat.add_assoc]
  · rw [h'.resets, h.resets, List.countP_append, Nat.add_assoc]
  · rw [h'.orphans, h.orphans, List.countP_append, Nat.add_assoc]

namespace Predictor

variable {q : Predictor} {ctx : Context}

/-- Learning from a prediction reports an allocation if one is made, and then a reset if there is
one. The slot of the branch is there, as the tables answer to the prediction. -/
theorem Answers.trainEvents_cases (ha : q.Answers ctx) (o : Outcome) :
    ∃ es, q.trainEvents ctx o = es ++ (if q.resetsNext then [.reset q.tally.clock] else []) ∧
      ((q.allocated ctx o).2.table? = none ∧ es = [] ∨
        ∃ i s, (q.allocated ctx o).2.table? = some i ∧ ctx.slots[i]? = some s ∧
          es = [.allocated ctx.pc i s]) := by
  obtain ⟨-, -, -, -, hmade⟩ := q.allocated_cases ctx o
  unfold trainEvents
  refine ⟨_, rfl, ?_⟩
  cases hal : (q.allocated ctx o).2 with
  | notNeeded => exact .inl ⟨rfl, rfl⟩
  | failed => exact .inl ⟨rfl, rfl⟩
  | made i =>
    obtain ⟨-, hi⟩ := hmade i hal
    obtain ⟨s, -, hs, -⟩ := ha.tables i _ (List.getElem?_eq_getElem hi)
    refine .inr ⟨i, s, rfl, hs, ?_⟩
    simp only [hs]

theorem WellFormed.accounted_resolve (hw : q.WellFormed) (ha : q.Answers ctx)
    (hp : q.pending = some ctx) (pc target : UInt64) (o : Outcome) (kind : Kind) :
    Accounted ((q.advance pc o).trainEvents ctx o) q.tally (q.resolve pc target o kind).tally := by
  have hr := hw.tally_resolve hp pc target o kind
  have hallocations : (q.resolve pc target o kind).tally.allocations
      = q.tally.allocations + ((q.advance pc o).allocated ctx o).2.table?.isSome.toNat := by
    rw [resolve_of_some o pc target kind hp]
    exact allocations_resolvedTally ..
  obtain ⟨es, hes, hcases⟩ := (ha.advance pc o).trainEvents_cases o
  have hreset : (q.advance pc o).resetsNext = q.resetsNext := rfl
  rw [hreset] at hes
  rcases hcases with ⟨htable, rfl⟩ | ⟨i, s, htable, -, rfl⟩
  all_goals
    rw [htable] at hallocations
    refine ⟨hallocations.trans ?_, hr.resets.trans ?_, hr.orphans.trans ?_⟩
    all_goals
      rw [hes]
      cases q.resetsNext <;> rfl

theorem WellFormed.accounted_step (hw : q.WellFormed) (ha : ∀ ctx ∈ q.pending, q.Answers ctx)
    (call : Call) : Accounted (q.stepEvents call) q.tally (q.step call).tally := by
  cases call with
  | predict pc => exact ⟨rfl, rfl, rfl⟩
  | advance pc o => exact accounted_nil _
  | clearUseful => exact accounted_nil _
  | resolve pc target o kind =>
    rw [stepEvents, step_resolve, resolveEvents]
    cases hp : q.pending with
    | none =>
      rw [resolve_of_none o pc target kind hp]
      exact ⟨rfl, rfl, rfl⟩
    | some ctx => exact hw.accounted_resolve (ha ctx hp) hp pc target o kind

theorem WellFormed.tells_trainEvents (hw : q.WellFormed) (ha : q.Answers ctx)
    (hp : q.pending = some ctx) (pc target : UInt64) (o : Outcome) (kind : Kind) :
    ∀ e ∈ (q.advance pc o).trainEvents ctx o, e.Tells q (.resolve pc target o kind) := by
  intro e he
  obtain ⟨es, hes, hcases⟩ := (ha.advance pc o).trainEvents_cases o
  rw [hes, List.mem_append] at he
  rcases he with he | he
  · rcases hcases with ⟨-, rfl⟩ | ⟨i, s, htable, hs, rfl⟩
    · cases he
    · obtain rfl := List.mem_singleton.1 he
      obtain ⟨aged, hfoot⟩ := hw.footprint_allocated ha hp pc target o kind
      obtain ⟨-, -, s', e, hs', hbefore, htag, hafter⟩ := hfoot.allocated i htable
      obtain rfl := Option.some.inj (hs.symm.trans hs')
      exact ⟨ctx, e, _, hp, rfl, hs, hbefore, htag, hafter, rfl⟩
  · split at he
    · next hreset =>
      obtain rfl := List.mem_singleton.1 he
      exact ⟨rfl, useful_eq_zero_of_reset o pc target kind hp hreset⟩
    · cases he

theorem WellFormed.tells_stepEvents (hw : q.WellFormed) (ha : ∀ ctx ∈ q.pending, q.Answers ctx)
    (call : Call) : ∀ e ∈ q.stepEvents call, e.Tells q call := by
  intro e he
  cases call with
  | predict pc =>
    obtain rfl := List.mem_singleton.1 he
    exact ⟨rfl, _, rfl, rfl, rfl, rfl, rfl⟩
  | advance pc o => cases he
  | clearUseful => cases he
  | resolve pc target o kind =>
    rw [stepEvents, resolveEvents] at he
    cases hp : q.pending with
    | none =>
      rw [hp] at he
      obtain rfl := List.mem_singleton.1 he
      exact ⟨hp, target, o, kind, rfl⟩
    | some ctx =>
      rw [hp] at he
      exact hw.tells_trainEvents (ha ctx hp) hp pc target o kind e he

theorem accounted_run {c : Config} (hc : c.Valid) (calls after : List Call) :
    let q := (ofConfig c).run calls
    Accounted (q.runEvents after) q.tally (q.run after).tally := by
  induction after generalizing calls with
  | nil => exact accounted_nil _
  | cons call after ih =>
    have hstep := ((wellFormed_ofConfig hc).run calls).accounted_step
      (answers_pending hc calls) call
    have hrest := ih (calls ++ [call])
    rw [run_concat] at hrest
    exact hstep.append hrest

theorem filter_isPredicted_trainEvents (q : Predictor) (ctx : Context) (o : Outcome) :
    (q.trainEvents ctx o).filter Event.isPredicted = [] := by
  unfold trainEvents
  dsimp only
  rw [List.filter_append, List.append_eq_nil_iff]
  constructor
  · split
    · split <;> rfl
    · rfl
  · split <;> rfl

theorem filter_isPredicted_stepEvents (q : Predictor) (after : List Call) (call : Call) :
    (q.stepEvents call).filter Event.isPredicted
      = (q.predicted (fun _ => true) after call).map Context.event := by
  cases call with
  | predict pc => rfl
  | advance pc o => rfl
  | clearUseful => rfl
  | resolve pc target o kind =>
    rw [stepEvents, resolveEvents]
    cases q.pending with
    | none => rfl
    | some ctx => exact filter_isPredicted_trainEvents ..

theorem filter_isPredicted_runEvents (q : Predictor) (calls : List Call) :
    (q.runEvents calls).filter Event.isPredicted = (q.allPredictions calls).map Context.event := by
  induction calls generalizing q with
  | nil => rfl
  | cons call after ih =>
    rw [runEvents, allPredictions_cons, List.filter_append, List.map_append, ih,
      filter_isPredicted_stepEvents q after]

theorem WellFormed.buildEvents_eq (hw : q.WellFormed) : buildEvents q.config =
    [.built q.config.variant (q.base.counters.size + (q.tables.map (·.entries.size)).sum)
      q.config.storageBits (q.tables.map (·.config.historyLength))] := by
  have hsizes : q.tables.map (·.entries.size) = q.config.tables.map TableConfig.size := by
    rw [← hw.tables_config, List.map_map]
    exact List.map_congr_left fun t ht => (hw.tables t ht).size
  have hlengths : q.tables.map (·.config.historyLength) = q.config.historyLengths := by
    unfold Config.historyLengths
    rw [← hw.tables_config, List.map_map]
    rfl
  rw [hsizes, hlengths, hw.base.size, hw.base_config]
  rfl

/-- Building reports the sizes and history lengths that the tables have. In every run the tally has
as many allocations, resets and orphans as were reported, the predictions that were reported are
those that were made, and each event tells what its call does. -/
theorem reports_run {c : Config} (hc : c.validate = .ok ()) : ∃ p, build c = .ok p ∧
    buildEvents c = [.built c.variant (p.base.counters.size + (p.tables.map (·.entries.size)).sum)
      c.storageBits (p.tables.map (·.config.historyLength))] ∧
    ∀ calls, let es := p.runEvents calls; let q := p.run calls
      es.countP Event.isAllocated = q.tally.allocations ∧
      es.countP Event.isReset = q.tally.resets ∧
      es.countP Event.isOrphan = q.tally.orphans ∧
      es.filter Event.isPredicted = (p.allPredictions calls).map Context.event ∧
      ∀ call, ∀ e ∈ q.stepEvents call, e.Tells q call := by
  have hv := Config.validate_eq_ok.1 hc
  refine ⟨ofConfig c, build_eq_ok.2 ⟨hv, rfl⟩, (wellFormed_ofConfig hv).buildEvents_eq, ?_⟩
  intro calls es q
  have haccounted : Accounted es (ofConfig c).tally q.tally := accounted_run hv [] calls
  have hzero : (ofConfig c).tally = .zero c.tables.length := rfl
  rw [hzero] at haccounted
  refine ⟨?_, ?_, ?_, filter_isPredicted_runEvents _ calls, fun call => ?_⟩
  · exact (haccounted.allocations.trans (Nat.zero_add _)).symm
  · exact (haccounted.resets.trans (Nat.zero_add _)).symm
  · exact (haccounted.orphans.trans (Nat.zero_add _)).symm
  · exact ((wellFormed_ofConfig hv).run calls).tells_stepEvents (answers_pending hv calls) call

end Predictor

end BranchPrediction
