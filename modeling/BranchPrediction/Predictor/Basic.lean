import BranchPrediction.Branch.Kind
import BranchPrediction.Generator
import BranchPrediction.Predictor.Allocation
import BranchPrediction.Table.Base

/-!
# The predictor

A base table and tagged tables over longer and longer outcome histories. Of the tables that know
a branch, the one with the longest history provides the prediction, and the next one is the
alternate; the base table stands in where there is none. A confident vote of the perceptron
overlay overrules the provider.

A prediction is remembered until the branch is resolved. Resolving shifts the outcome into the
histories, trains the provider and the overlay, and after a wrong prediction allocates an entry in
a table with a longer history. One number is drawn for each resolved prediction: its high half
chooses among the candidates for allocation, and its low bits say whether all usefulness is
cleared.
-/

namespace BranchPrediction

/-- The addresses of the latest branches, some bits of each. -/
structure PathHistory where
  config : PathConfig
  register : Register
  deriving DecidableEq, Repr

namespace PathHistory

def ofConfig (c : PathConfig) : PathHistory :=
  ⟨c, .zero c.length⟩

/-- Fails if there cannot be so long a register. -/
def ofConfig? (c : PathConfig) : Option PathHistory :=
  (Register.zero? c.length).map (⟨c, ·⟩)

/-- Shifts in the address of a branch. -/
def push (h : PathHistory) (pc : UInt64) : PathHistory :=
  { h with
    register := h.register.pushBits (pc.toNat >>> h.config.alignBits) h.config.bitsPerBranch }

end PathHistory

/-- The state of a predictor. -/
structure Predictor where
  config : Config
  base : BaseTable
  /-- from the shortest history to the longest -/
  tables : List TaggedTable
  overlay : Option Overlay
  /-- the outcomes, newest first -/
  global : Register
  path : Option PathHistory
  generator : Generator
  tally : Tally
  /-- the latest prediction, if it is not resolved yet -/
  pending : Option Context
  deriving DecidableEq, Repr

namespace Predictor

/-! ## Building -/

/-- A predictor that has seen nothing. The path history comes into the index of every tagged
table but the first. -/
def ofConfig (c : Config) : Predictor where
  config := c
  base := .ofConfig c.base
  tables := c.tables.mapIdx fun i t => .ofConfig t (c.path.isSome && 0 < i)
  overlay := c.overlay.map .ofConfig
  global := .zero c.globalLength
  path := c.path.map .ofConfig
  generator := .ofSeed c.seed
  tally := .zero c.tables.length
  pending := none

/-- A predictor with a valid configuration. -/
def build (c : Config) : Except ConfigError Predictor := do
  c.validate
  .ok (ofConfig c)

/-- Fails if a part cannot be built: a counter or a fold has no valid width, or there cannot be
tables and histories as large as the configuration says. -/
def ofConfig? (c : Config) : Option Predictor := do
  let base ← BaseTable.ofConfig? c.base
  let tables ← (c.tables.mapIdx fun i t => (t, c.path.isSome && 0 < i)).mapM fun (t, usesPath) =>
    TaggedTable.ofConfig? t usesPath
  let overlay ← c.overlay.mapM Overlay.ofConfig?
  let global ← Register.zero? c.globalLength
  let path ← c.path.mapM PathHistory.ofConfig?
  some { ofConfig c with base, tables, overlay, global, path }

/-- Fails if the configuration is valid but a part of the predictor cannot be built. -/
def build? (c : Config) : Option (Except ConfigError Predictor) :=
  match c.validate with
  | .error e => some (.error e)
  | .ok _ => (ofConfig? c).map .ok

/-! ## Predicting -/

/-- Where a branch is looked up in the tagged tables. -/
def slots (p : Predictor) (pc : UInt64) : List Slot :=
  let path := p.path.map PathHistory.register
  p.tables.map fun t => ⟨t.index pc path, t.tag pc⟩

/-- Whether a tagged table knows a branch. -/
def matchesAt (tables : List TaggedTable) (slots : List Slot) (i : Nat) : Bool :=
  match entryAt? tables slots i, slots[i]? with
  | some e, some s => e.holds s.tag
  | _, _ => false

/-- The tagged tables that know a branch, from the longest history to the shortest. -/
def hits (tables : List TaggedTable) (slots : List Slot) : List Nat :=
  ((List.range tables.length).filter (matchesAt tables slots)).reverse

/-- The table at a place in the list of hits, and the base table if the list ends before. -/
def providerAt (hits : List Nat) (k : Nat) : Provider :=
  match hits[k]? with
  | some i => .tagged i
  | none => .base

/-- What a table predicts for a branch. -/
def predictionOf (p : Predictor) (baseIndex : Nat) (slots : List Slot) : Provider → Outcome
  | .base => (p.base.counter baseIndex).predict
  | .tagged i =>
    match entryAt? p.tables slots i with
    | some e => e.predict
    | none => .notTaken

/-- The direction predicted in the end: the vote if it is confident, else the provider's. -/
def finalOutcome (p : Predictor) (vote : Option Vote) (providerOutcome : Outcome) : Outcome :=
  match p.overlay, vote with
  | some o, some v => if v.isConfident o.config.threshold then v.outcome else providerOutcome
  | _, _ => providerOutcome

/-- Looks a branch up, without changing anything. -/
def lookup (p : Predictor) (pc : UInt64) : Context :=
  let slots := p.slots pc
  let baseIndex := p.base.index pc
  let hits := hits p.tables slots
  let provider := providerAt hits 0
  let alternate := providerAt hits 1
  let providerOutcome := p.predictionOf baseIndex slots provider
  let vote := p.overlay.map (·.vote pc)
  { pc, slots, baseIndex, provider, providerOutcome, alternate
    alternateOutcome := p.predictionOf baseIndex slots alternate
    vote
    outcome := p.finalOutcome vote providerOutcome }

/-- Predicts a branch. The prediction takes the place of one that is not resolved yet. -/
def predict (p : Predictor) (pc : UInt64) : Predictor :=
  { p with pending := some (p.lookup pc) }

/-! ## Resolving -/

/-- Shifts an outcome into the global history and an address into the path history. -/
def advance (p : Predictor) (pc : UInt64) (outcome : Outcome) : Predictor :=
  let global := p.global.push outcome.toBool
  { p with
    global
    tables := p.tables.map (·.follow global)
    path := p.path.map (·.push pc) }

/-- Takes all usefulness away from all tagged tables. -/
def clearUseful (p : Predictor) : Predictor :=
  { p with tables := p.tables.map TaggedTable.clearUseful }

/-- The base table after a branch is resolved. It is trained only if it was the provider. -/
def trainedBase (p : Predictor) (ctx : Context) (outcome : Outcome) : BaseTable :=
  match ctx.provider with
  | .base => p.base.update ctx.baseIndex outcome
  | .tagged _ => p.base

/-- The tagged tables after the provider is trained. -/
def trainedTables (p : Predictor) (ctx : Context) (outcome : Outcome) : List TaggedTable :=
  match ctx.provider with
  | .base => p.tables
  | .tagged i =>
    modifyAt p.tables ctx.slots i fun _ e =>
      e.train ctx.providerOutcome ctx.alternateOutcome outcome

def trainedOverlay (p : Predictor) (ctx : Context) (outcome : Outcome) : Option Overlay :=
  match p.overlay, ctx.vote with
  | some o, some v => some (o.train v outcome)
  | o, _ => o

/-- The tagged tables after training and allocation, and what came of the allocation. -/
def allocated (p : Predictor) (ctx : Context) (outcome : Outcome) :
    List TaggedTable × Allocation :=
  let tables := p.trainedTables ctx outcome
  if ctx.outcome = outcome then (tables, .notNeeded)
  else
    allocate tables ctx.slots ctx.provider.next outcome (p.generator.output >>> 32).toNat

/-- Whether the number that is drawn next clears all usefulness. -/
def resetsNext (p : Predictor) : Bool :=
  p.generator.output.toNat % 2 ^ p.config.usefulResetLog2 == 0

/-- Learns from a prediction whose branch is resolved. -/
def train (p : Predictor) (ctx : Context) (outcome : Outcome) : Predictor :=
  let (tables, allocation) := p.allocated ctx outcome
  let reset := p.resetsNext
  { p with
    base := p.trainedBase ctx outcome
    tables := if reset then tables.map TaggedTable.clearUseful else tables
    overlay := p.trainedOverlay ctx outcome
    generator := p.generator.advance
    tally := (((p.tally.countOverride ctx.isOverride (ctx.outcome == outcome)).countProvider
      ctx.provider (ctx.providerOutcome == outcome)).countAllocation allocation).countReset reset }

/-- Resolves a branch: the histories move on, and the pending prediction is learned from, whatever
branch it was for. Without one the branch is an orphan. The target and the kind are of no
consequence for a direction. -/
def resolve (p : Predictor) (pc _target : UInt64) (outcome : Outcome) (_kind : Kind) :
    Predictor :=
  let q := { p.advance pc outcome with pending := none }
  let q :=
    match p.pending with
    | some ctx => q.train ctx outcome
    | none => { q with tally := q.tally.countOrphan }
  { q with tally := q.tally.tick }

end Predictor

end BranchPrediction
