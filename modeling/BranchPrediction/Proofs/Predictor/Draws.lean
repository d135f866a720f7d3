import Mathlib.Logic.Function.Iterate
import BranchPrediction.Proofs.Predictor.Candidates
import BranchPrediction.Proofs.Predictor.Lessons
import BranchPrediction.Proofs.Predictor.ValidEntries

/-!
# Draws

One number is drawn for each resolved prediction, and for nothing else. So number `k` of the
sequence that the seed starts belongs to resolved prediction `k`, whatever branches are predicted:
it decides whether all usefulness is cleared then (`Config.resetsAt`) and which candidate is given
an entry (`Context.pick`). `OnSchedule` says how far the generator is and how many resets there
were; one call keeps it (`OnSchedule.step`), and so does a run (`OnSchedule.run`). `DecidedBy` says
what becomes of a resolved prediction by its number.
-/

namespace BranchPrediction

namespace Config

/-- Number `k` of the sequence that the seed starts. -/
def draw (c : Config) (k : Nat) : UInt64 :=
  (Generator.advance^[k] (.ofSeed c.seed)).output

/-- Whether a number clears all usefulness. -/
def resetsOn (c : Config) (draw : UInt64) : Bool :=
  draw.toNat % 2 ^ c.usefulResetLog2 == 0

def resetsAt (c : Config) (k : Nat) : Bool :=
  c.resetsOn (c.draw k)

end Config

namespace Predictor

/-- The numbers of the resolved predictions at which a run counts a reset, if the first one has
number `n`. -/
def resetTimesFrom (p : Predictor) (n : Nat) : List Call → List Nat
  | [] => []
  | call :: after =>
    (if p.tally.resets < (p.step call).tally.resets then [n] else [])
      ++ (p.step call).resetTimesFrom (n + (p.lesson? call).toList.length) after

def resetTimes (p : Predictor) (calls : List Call) : List Nat :=
  p.resetTimesFrom 0 calls

/-- How `draw` decides what becomes of the tables when prediction `ctx` is resolved. -/
structure DecidedBy (draw : UInt64) (ctx : Context) (o : Outcome) (q r : Predictor) : Prop where
  footprint : ∃ aged, Footprint ctx o (q.config.resetsOn draw) aged (ctx.pick q.tables o draw) q r
  resets : r.tally.resets = q.tally.resets + (q.config.resetsOn draw).toNat
  cleared : q.config.resetsOn draw = true → ∀ t ∈ r.tables, ∀ e ∈ t.entries, e.useful.value = 0
  allocations : r.tally.allocations = q.tally.allocations + (ctx.pick q.tables o draw).isSome.toNat
  /-- the tables to choose from are counted from the shortest history to the longest -/
  order : (eligible q.tables ctx.slots ctx.provider.next).Pairwise fun i j =>
    ∀ t u, q.tables[i]? = some t → q.tables[j]? = some u →
      t.config.historyLength < u.config.historyLength

/-- The state after `n` resolved predictions, as far as the generator decides it. -/
structure OnSchedule (c : Config) (n : Nat) (q : Predictor) : Prop where
  config : q.config = c
  generator : q.generator = Generator.advance^[n] (.ofSeed c.seed)
  clock : q.tally.orphans + n = q.tally.clock
  resets : q.tally.resets = (List.range n).countP c.resetsAt

variable {c : Config} {n : Nat} {q : Predictor} {ctx : Context}

theorem OnSchedule.output_eq (h : q.OnSchedule c n) : q.generator.output = c.draw n :=
  congrArg Generator.output h.generator

theorem OnSchedule.resetsNext_eq (h : q.OnSchedule c n) : q.resetsNext = c.resetsAt n := by
  change q.config.resetsOn q.generator.output = c.resetsOn (c.draw n)
  rw [h.config, h.output_eq]

theorem WellFormed.historyLength_lt (hw : q.WellFormed) {i j : Nat} (hij : i < j) :
    ∀ t u, q.tables[i]? = some t → q.tables[j]? = some u →
      t.config.historyLength < u.config.historyLength := by
  intro t u ht hu
  have hlengths := (List.pairwise_cons.1 hw.valid.lengths).2
  unfold Config.historyLengths at hlengths
  rw [← hw.tables_config, List.map_map, List.pairwise_map, List.pairwise_iff_getElem] at hlengths
  obtain ⟨hi, rfl⟩ := List.getElem?_eq_some_iff.1 ht
  obtain ⟨hj, rfl⟩ := List.getElem?_eq_some_iff.1 hu
  exact hlengths i j hi hj hij

theorem WellFormed.decidedBy (hw : q.WellFormed) (ha : q.Answers ctx) (hp : q.pending = some ctx)
    (pc target : UInt64) (o : Outcome) (kind : Kind) :
    DecidedBy q.generator.output ctx o q (q.resolve pc target o kind) := by
  have hpick := hw.table?_allocated pc ctx o
  constructor
  case footprint =>
    rw [← hpick]
    exact hw.footprint_allocated ha hp pc target o kind
  case resets => exact (hw.tally_resolve hp pc target o kind).resets
  case cleared => exact useful_eq_zero_of_reset o pc target kind hp
  case allocations =>
    rw [← hpick, resolve_of_some o pc target kind hp]
    exact allocations_resolvedTally ..
  case order =>
    exact (eligible_pairwise ..).imp fun hij => hw.historyLength_lt hij

theorem onSchedule_ofConfig (c : Config) : (ofConfig c).OnSchedule c 0 :=
  ⟨rfl, rfl, rfl, rfl⟩

theorem OnSchedule.resolve (h : q.OnSchedule c n) (hw : q.WellFormed) (hp : q.pending = some ctx)
    (pc target : UInt64) (o : Outcome) (kind : Kind) :
    (q.resolve pc target o kind).OnSchedule c (n + 1) := by
  have hr := hw.tally_resolve hp pc target o kind
  constructor
  case config => exact (config_step q (.resolve pc target o kind)).trans h.config
  case generator =>
    rw [resolve_of_some o pc target kind hp, Function.iterate_succ_apply', ← h.generator]
  case clock => rw [hr.orphans, hr.clock, ← h.clock, Nat.add_assoc]
  case resets =>
    rw [hr.resets, h.resetsNext_eq, h.resets, List.range_succ, List.countP_append,
      List.countP_singleton]
    cases c.resetsAt n <;> rfl

/-- A call draws a number exactly if it has a lesson. -/
theorem OnSchedule.step (h : q.OnSchedule c n) (hw : q.WellFormed) (call : Call) :
    (q.step call).OnSchedule c (n + (q.lesson? call).toList.length) := by
  cases call with
  | resolve pc target o kind =>
    rw [step_resolve, lesson?]
    cases hp : q.pending with
    | none =>
      rw [resolve_of_none o pc target kind hp]
      refine ⟨h.config, h.generator, ?_, h.resets⟩
      change q.tally.orphans + 1 + n = q.tally.clock + 1
      rw [Nat.add_right_comm, h.clock]
    | some ctx => exact h.resolve hw hp pc target o kind
  | _ => exact ⟨h.config, h.generator, h.clock, h.resets⟩

theorem OnSchedule.resetTimes_step (h : q.OnSchedule c n) (hw : q.WellFormed) (call : Call) :
    (if q.tally.resets < (q.step call).tally.resets then [n] else [])
      = (List.range' n (q.lesson? call).toList.length).filter c.resetsAt := by
  have hstep := (h.step hw call).resets
  rw [hstep, h.resets]
  cases q.lesson? call with
  | none => simp
  | some e =>
    rw [Option.toList_some, List.length_singleton, List.range_succ, List.countP_append,
      List.countP_singleton, List.range'_one]
    cases hreset : c.resetsAt n <;> simp [hreset]

theorem OnSchedule.run (h : q.OnSchedule c n) (hw : q.WellFormed) (calls : List Call) :
    (q.run calls).OnSchedule c (n + (q.learned calls).length) ∧
      q.resetTimesFrom n calls
        = (List.range' n (q.learned calls).length).filter c.resetsAt := by
  induction calls generalizing q n with
  | nil => exact ⟨h, rfl⟩
  | cons call calls ih =>
    obtain ⟨hrun, htimes⟩ := ih (h.step hw call) (hw.step call)
    rw [run_cons, learned, List.length_append]
    refine ⟨?_, ?_⟩
    · rw [← Nat.add_assoc]
      exact hrun
    · rw [resetTimesFrom, h.resetTimes_step hw, htimes, ← List.filter_append]
      congr 1
      exact List.range'_append_1

/-- In every run, the generator has advanced once for each resolved prediction, and number `k` of
its sequence decides what becomes of resolved prediction `k`. So the resets of two runs fall on the
same resolved predictions. -/
theorem draws_run (hc : c.validate = .ok ()) :
    ∃ p, build c = .ok p ∧ ∀ calls, let q := p.run calls; let n := (lessons calls).length
      q.tally.orphans + n = q.tally.clock ∧
      q.generator = Generator.advance^[n] (.ofSeed c.seed) ∧
      q.tally.resets = (List.range n).countP c.resetsAt ∧
      p.resetTimes calls = (List.range n).filter c.resetsAt ∧
      (∀ ctx, q.pending = some ctx → ∀ pc target o kind,
        DecidedBy (c.draw n) ctx o q (q.resolve pc target o kind)) ∧
      ∀ calls' k, k < n → k < (lessons calls').length →
        (k ∈ p.resetTimes calls ↔ k ∈ p.resetTimes calls') := by
  have hv := Config.validate_eq_ok.1 hc
  have hrun : ∀ calls, let n := (lessons calls).length
      ((ofConfig c).run calls).OnSchedule c n ∧
        (ofConfig c).resetTimes calls = (List.range n).filter c.resetsAt := by
    intro calls
    have h := (onSchedule_ofConfig c).run (wellFormed_ofConfig hv) calls
    rw [learned_eq_lessons rfl, Nat.zero_add, ← List.range_eq_range'] at h
    exact h
  refine ⟨ofConfig c, build_eq_ok.2 ⟨hv, rfl⟩, fun calls => ?_⟩
  obtain ⟨hschedule, htimes⟩ := hrun calls
  refine ⟨hschedule.clock, hschedule.generator, hschedule.resets, htimes,
    fun ctx hp pc target o kind => ?_, fun calls' k hk hk' => ?_⟩
  · rw [← hschedule.output_eq]
    exact ((wellFormed_ofConfig hv).run calls).decidedBy (answers_pending hv calls ctx hp) hp pc
      target o kind
  · rw [htimes, (hrun calls').2, List.mem_filter, List.mem_filter, List.mem_range, List.mem_range]
    simp only [hk, hk']

/-- Two predictions are resolved. The number of the first clears all usefulness, and that of the
second does not. -/
theorem draws_run_small : ∃ p, build .small = .ok p ∧
    let calls := [.predict 6, .resolve 6 0 .taken .directBranch, .resolve 5 0 .notTaken .ret,
      .clearUseful, .predict 9, .advance 3 .taken, .resolve 9 0 .taken .directBranch]
    (p.run calls).generator = Generator.advance (Generator.advance (.ofSeed 1)) ∧
      (p.run calls).tally.resets = 1 ∧ p.resetTimes calls = [0] ∧
      DecidedBy (Config.small.draw 0) (p.lookup 6) .taken (p.predict 6)
        ((p.predict 6).resolve 6 0 .taken .directBranch) := by
  obtain ⟨p, hb, h⟩ := draws_run (c := .small) (by decide)
  obtain ⟨-, hgenerator, hresets, htimes, -⟩ := h [.predict 6, .resolve 6 0 .taken .directBranch,
    .resolve 5 0 .notTaken .ret, .clearUseful, .predict 9, .advance 3 .taken,
    .resolve 9 0 .taken .directBranch]
  obtain ⟨-, -, -, -, hdecided, -⟩ := h [.predict 6]
  exact ⟨p, hb, hgenerator, hresets.trans (by decide), htimes.trans (by decide),
    hdecided _ rfl 6 0 .taken .directBranch⟩

end Predictor

end BranchPrediction
