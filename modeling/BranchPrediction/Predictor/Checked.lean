import BranchPrediction.Predictor.Run

/-!
# Checked calls

The calls of a predictor, failing where an index leaves its table, a shift is not below the width
of a word, or a sum does not fit. Where they do not fail they do what the unchecked calls do.
-/

namespace BranchPrediction

/-- Fails if a shift of an address is not below its width, or if more is pushed than a word
holds. -/
def PathHistory.push? (h : PathHistory) (pc : UInt64) : Option PathHistory :=
  if h.config.alignBits < wordBits then do
    let register ← h.register.pushBits? (pc.toNat >>> h.config.alignBits) h.config.bitsPerBranch
    some { h with register }
  else none

namespace Predictor

/-! ## Predicting -/

/-- Fails if a hash of a tagged table does. -/
def slots? (p : Predictor) (pc : UInt64) : Option (List Slot) :=
  let path := p.path.map PathHistory.register
  p.tables.mapM fun t => do
    let index ← t.index? pc path
    let tag ← t.tag? pc
    some ⟨index, tag⟩

/-- The entries in slots of tagged tables. Fails if there is no slot for a table, or if an index
leaves its table. -/
def entries? (tables : List TaggedTable) (slots : List Slot) : Option (List Entry) :=
  if tables.length ≤ slots.length then (tables.zip slots).mapM fun (t, s) => t.entry? s.index
  else none

/-- Fails if the magnitude of the vote cannot be compared with the threshold. -/
def finalOutcome? (p : Predictor) (vote : Option Vote) (providerOutcome : Outcome) :
    Option Outcome :=
  match p.overlay, vote with
  | some o, some v => do
    let confident ← v.isConfident? o.config.threshold
    some (if confident then v.outcome else providerOutcome)
  | _, _ => some providerOutcome

/-- Fails if a table or the overlay cannot be looked up. -/
def lookup? (p : Predictor) (pc : UInt64) : Option Context := do
  let slots ← p.slots? pc
  let _ ← entries? p.tables slots
  let baseIndex ← p.base.index? pc
  let _ ← p.base.counter? baseIndex
  let vote ← p.overlay.mapM (·.vote? pc)
  let ctx := p.lookup pc
  let outcome ← p.finalOutcome? vote ctx.providerOutcome
  some { ctx with slots, baseIndex, vote, outcome }

def predict? (p : Predictor) (pc : UInt64) : Option Predictor := do
  let ctx ← p.lookup? pc
  some { p with pending := some ctx }

/-! ## Resolving -/

/-- Fails if a folded history or the path history cannot follow. -/
def advance? (p : Predictor) (pc : UInt64) (outcome : Outcome) : Option Predictor := do
  let global := p.global.push outcome.toBool
  let tables ← p.tables.mapM (·.follow? global)
  let path ← p.path.mapM (·.push? pc)
  some { p with global, tables, path }

/-- Fails if the provider of a context is not there, cannot be trained, or is not counted. -/
def trainProvider? (p : Predictor) (ctx : Context) (outcome : Outcome) : Option Unit :=
  match ctx.provider with
  | .base => do
    let c ← p.base.counter? ctx.baseIndex
    let _ ← c.update? outcome
    some ()
  | .tagged i => do
    let t ← p.tables[i]?
    let s ← ctx.slots[i]?
    let e ← t.entry? s.index
    let _ ← e.train? ctx.providerOutcome ctx.alternateOutcome outcome
    let _ ← p.tally.taggedHits[i]?
    let _ ← p.tally.taggedMisses[i]?
    some ()

/-- Fails if the vote of a context cannot be trained. -/
def trainOverlay? (p : Predictor) (ctx : Context) (outcome : Outcome) : Option Unit :=
  match p.overlay, ctx.vote with
  | some o, some v => do
    let _ ← o.trained? v outcome
    some ()
  | _, _ => some ()

/-- Fails if `choice` falls on no candidate though there are some, or if the entry of the
candidate is not there. -/
def claim? (tables : List TaggedTable) (slots : List Slot) (choice : Nat) (among : List Nat) :
    Option Unit :=
  if 0 < among.length then do
    let i ← among[choice % among.length]?
    let t ← tables[i]?
    let s ← slots[i]?
    let _ ← t.entry? s.index
    some ()
  else some ()

/-- Fails if there is no slot for one of the tables that an entry may be allocated in, if an entry
there cannot age when none can be replaced, or if the allocation does. -/
def allocate? (tables : List TaggedTable) (slots : List Slot) (start choice : Nat) :
    Option Unit := do
  let entries ← entries? (tables.drop start) (slots.drop start)
  match candidates tables slots start with
  | [] =>
    let _ ← entries.mapM Entry.age?
    let aged := ageFrom tables slots start
    let _ ← entries? (aged.drop start) (slots.drop start)
    claim? aged slots choice (candidates aged slots start)
  | among => claim? tables slots choice among

/-- Fails if training or allocation does, or if the reset period takes more bits than a word
has. -/
def train? (p : Predictor) (ctx : Context) (outcome : Outcome) : Option Predictor := do
  p.trainOverlay? ctx outcome
  p.trainProvider? ctx outcome
  if ctx.outcome ≠ outcome then
    allocate? (p.trainedTables ctx outcome) ctx.slots ctx.provider.next
      (p.generator.output >>> 32).toNat
  if p.config.usefulResetLog2 < wordBits then some (p.train ctx outcome) else none

def resolve? (p : Predictor) (pc _target : UInt64) (outcome : Outcome) (_kind : Kind) :
    Option Predictor := do
  let q ← p.advance? pc outcome
  let q := { q with pending := none }
  let q ←
    match p.pending with
    | some ctx => q.train? ctx outcome
    | none => some { q with tally := q.tally.countOrphan }
  some { q with tally := q.tally.tick }

/-! ## Runs -/

def step? (p : Predictor) : Call → Option Predictor
  | .predict pc => p.predict? pc
  | .resolve pc target outcome kind => p.resolve? pc target outcome kind
  | .advance pc outcome => p.advance? pc outcome
  | .clearUseful => some p.clearUseful

/-- The state after a sequence of calls. Fails at the first call that does. -/
def run? (p : Predictor) (calls : List Call) : Option Predictor :=
  calls.foldlM step? p

end Predictor

end BranchPrediction
