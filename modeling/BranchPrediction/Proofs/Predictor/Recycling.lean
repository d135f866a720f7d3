import BranchPrediction.Predictor.Run

/-!
# One place for all contexts

A predictor need not make a new context for each prediction. A `Recycler` has one context and a flag
that says whether it is live: a prediction is written over whatever is there, part by part, and a
resolved prediction is left there. `view_run` says that this is the same predictor, whatever the
context holds at the start: every part of it is written before it is read.
-/

namespace BranchPrediction

namespace Predictor

/-- Writes the slots of a branch over those of `old`, table by table. -/
def slotsInto (p : Predictor) (old : Context) (pc : UInt64) : Context :=
  p.tables.foldl
    (fun ctx t =>
      { ctx with
        slots := ctx.slots ++ [⟨t.index pc (p.path.map PathHistory.register), t.tag pc⟩] })
    { old with pc, slots := [] }

/-- Looks a branch up and writes the prediction over `old`. The base table provides until a tagged
table is found that knows the branch. -/
def lookupInto (p : Predictor) (old : Context) (pc : UInt64) : Context :=
  let ctx := p.slotsInto old pc
  let ctx := { ctx with baseIndex := p.base.index pc }
  let baseOutcome := (p.base.counter ctx.baseIndex).predict
  let ctx :=
    { ctx with
      provider := .base
      providerOutcome := baseOutcome
      alternate := .base
      alternateOutcome := baseOutcome }
  let hits := hits p.tables ctx.slots
  let ctx :=
    match hits[0]? with
    | some i =>
      { ctx with
        provider := .tagged i
        providerOutcome := p.predictionOf ctx.baseIndex ctx.slots (.tagged i) }
    | none => ctx
  let ctx :=
    match hits[1]? with
    | some i =>
      { ctx with
        alternate := .tagged i
        alternateOutcome := p.predictionOf ctx.baseIndex ctx.slots (.tagged i) }
    | none => ctx
  let vote := p.overlay.map (·.vote pc)
  let ctx := { ctx with vote }
  { ctx with outcome := p.finalOutcome ctx.vote ctx.providerOutcome }

theorem foldl_slots {α : Type} (f : α → Slot) (l : List α) (ctx : Context) :
    l.foldl (fun ctx a => { ctx with slots := ctx.slots ++ [f a] }) ctx
      = { ctx with slots := ctx.slots ++ l.map f } := by
  induction l generalizing ctx with
  | nil => simp
  | cons a l ih => simp [ih]

theorem slotsInto_eq (p : Predictor) (old : Context) (pc : UInt64) :
    p.slotsInto old pc = { old with pc, slots := p.slots pc } := by
  unfold slotsInto
  rw [foldl_slots]
  rfl

/-- Nothing of the old context is left. -/
theorem lookupInto_eq (p : Predictor) (old : Context) (pc : UInt64) :
    p.lookupInto old pc = p.lookup pc := by
  unfold lookupInto lookup
  dsimp only
  rw [slotsInto_eq]
  unfold providerAt
  -- the provider is the first hit and the alternate the second, if there are so many
  cases (hits p.tables (p.slots pc))[0]? with
  | none => cases (hits p.tables (p.slots pc))[1]? <;> rfl
  | some i => cases (hits p.tables (p.slots pc))[1]? <;> rfl

end Predictor

/-- A predictor with one place for its contexts. The pending prediction of `predictor` itself takes
no part. -/
structure Recycler where
  predictor : Predictor
  context : Context
  live : Bool

namespace Recycler

def view (m : Recycler) : Predictor :=
  { m.predictor with pending := if m.live then some m.context else none }

def step (m : Recycler) : Call → Recycler
  | .predict pc => { m with context := m.predictor.lookupInto m.context pc, live := true }
  | .resolve pc _ outcome _ =>
    let q := m.predictor.advance pc outcome
    let q :=
      if m.live then q.train m.context outcome else { q with tally := q.tally.countOrphan }
    { m with predictor := { q with tally := q.tally.tick }, live := false }
  | .advance pc outcome => { m with predictor := m.predictor.advance pc outcome }
  | .clearUseful => { m with predictor := m.predictor.clearUseful }

def run (m : Recycler) (calls : List Call) : Recycler :=
  calls.foldl step m

theorem view_step (m : Recycler) (call : Call) : (m.step call).view = m.view.step call := by
  cases call with
  | predict pc =>
    simp only [step, view, Predictor.lookupInto_eq]
    rfl
  | resolve pc target outcome kind =>
    cases hlive : m.live <;> simp only [step, view, hlive] <;> rfl
  | advance pc outcome => rfl
  | clearUseful => rfl

/-- Whatever the context holds at the start, a run is the run of the predictor. -/
theorem view_run (m : Recycler) (calls : List Call) : (m.run calls).view = m.view.run calls := by
  induction calls generalizing m with
  | nil => rfl
  | cons call calls ih =>
    rw [Predictor.run_cons, ← view_step]
    exact ih (m.step call)

end Recycler

end BranchPrediction
