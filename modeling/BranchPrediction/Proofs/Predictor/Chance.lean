import BranchPrediction.Proofs.Predictor.Conservation
import BranchPrediction.Proofs.Predictor.Representation

/-!
# Where chance comes in

The generator chooses which entry is allocated after a wrong prediction, and says when all
usefulness is cleared. `withoutChance` forgets the seed and the reset period with all that they act
on while predictions are right: the usefulness of the entries, the generator and the count of
resets. Nothing that is forgotten comes into a prediction (`lookup_withoutChance`) or into what a
call leaves of the rest, unless the call finds a wrong prediction (`withoutChance_step`). So until
then two runs that differ in the seed and the reset period alone stay alike. Main statement:
`alike_until_miss`.
-/

namespace BranchPrediction

namespace Entry

theorem clearUseful_clearUseful (e : Entry) : e.clearUseful.clearUseful = e.clearUseful := by
  simp [clearUseful, Counter.set]

theorem clearUseful_train (e : Entry) (predicted alternate o : Outcome) :
    (e.clearUseful.train predicted alternate o).clearUseful
      = (e.train predicted alternate o).clearUseful := by
  unfold train
  by_cases hsame : predicted = alternate
  · simp only [if_pos hsame]
    rfl
  · by_cases hright : predicted = o
    · simp only [if_neg hsame, if_pos hright]
      rfl
    · simp only [if_neg hsame, if_neg hright]
      rfl

end Entry

namespace TaggedTable

theorem entry_clearUseful (t : TaggedTable) (k : Nat) :
    t.clearUseful.entry k = (t.entry k).clearUseful := by
  show (t.entries.map Entry.clearUseful)[k &&& t.mask]?.getD (.fresh t.config) = _
  rw [Array.getElem?_map, entry]
  cases t.entries[k &&& t.mask]? with
  | none => exact (Entry.clearUseful_fresh _).symm
  | some e => rfl

theorem clearUseful_clearUseful (t : TaggedTable) : t.clearUseful.clearUseful = t.clearUseful := by
  refine congrArg (fun es => { t with entries := es }) ?_
  show (t.entries.map Entry.clearUseful).map Entry.clearUseful = _
  rw [Array.map_map]
  exact Array.map_congr_left fun e _ => e.clearUseful_clearUseful

theorem clearUseful_modify (t : TaggedTable) (k : Nat) {f : Entry → Entry}
    (h : ∀ e : Entry, (f e.clearUseful).clearUseful = (f e).clearUseful) :
    (t.clearUseful.modify k f).clearUseful = (t.modify k f).clearUseful := by
  refine congrArg (fun es => { t with entries := es }) (Array.ext_getElem? fun j => ?_)
  show (((t.entries.map Entry.clearUseful).modify (k &&& t.mask) f).map Entry.clearUseful)[j]?
    = ((t.entries.modify (k &&& t.mask) f).map Entry.clearUseful)[j]?
  rw [Array.getElem?_map, Array.getElem?_map, Array.getElem?_modify, Array.getElem?_modify,
    Array.getElem?_map]
  cases t.entries[j]? with
  | none => split <;> rfl
  | some e =>
    split
    · exact congrArg some (h e)
    · exact congrArg some e.clearUseful_clearUseful

end TaggedTable

section
variable (tables : List TaggedTable) (slots : List Slot)

theorem map_clearUseful_clearUseful :
    (tables.map TaggedTable.clearUseful).map TaggedTable.clearUseful
      = tables.map TaggedTable.clearUseful := by
  rw [List.map_map]
  exact List.map_congr_left fun t _ => t.clearUseful_clearUseful

theorem entryAt?_clearUseful (i : Nat) : entryAt? (tables.map TaggedTable.clearUseful) slots i
    = (entryAt? tables slots i).map Entry.clearUseful := by
  unfold entryAt?
  rw [List.getElem?_map]
  cases tables[i]? with
  | none => rfl
  | some t =>
    cases slots[i]? with
    | none => rfl
    | some s => exact congrArg some (t.entry_clearUseful s.index)

theorem Predictor.hits_clearUseful :
    hits (tables.map TaggedTable.clearUseful) slots = hits tables slots := by
  have hmatches : matchesAt (tables.map TaggedTable.clearUseful) slots
      = matchesAt tables slots := by
    funext i
    unfold matchesAt
    rw [entryAt?_clearUseful]
    cases entryAt? tables slots i with
    | none => rfl
    | some e => cases slots[i]? <;> rfl
  rw [hits, hmatches, List.length_map]
  rfl

theorem clearUseful_mapSlots {f : Nat → Slot → Entry → Entry}
    (h : ∀ i s e, (f i s (Entry.clearUseful e)).clearUseful = (f i s e).clearUseful) :
    (mapSlots slots f (tables.map TaggedTable.clearUseful)).map TaggedTable.clearUseful
      = (mapSlots slots f tables).map TaggedTable.clearUseful := by
  refine List.ext_getElem? fun i => ?_
  rw [List.getElem?_map, List.getElem?_map, getElem?_mapSlots, getElem?_mapSlots,
    List.getElem?_map]
  cases tables[i]? with
  | none => rfl
  | some t =>
    cases slots[i]? with
    | none => exact congrArg some t.clearUseful_clearUseful
    | some s => exact congrArg some (t.clearUseful_modify s.index (h i s))

end

/-! ## States without chance -/

def Tally.withoutResets (t : Tally) : Tally := { t with resets := 0 }

def Config.withoutChance (c : Config) : Config := { c with seed := 0, usefulResetLog2 := 0 }

namespace Predictor

/-- The state without the seed, the reset period, the usefulness of entries, the generator and the
count of resets. -/
def withoutChance (p : Predictor) : Predictor :=
  { p with
    config := p.config.withoutChance
    tables := p.tables.map TaggedTable.clearUseful
    generator := .ofSeed 0
    tally := p.tally.withoutResets }

@[simp] theorem tables_withoutChance (p : Predictor) :
    p.withoutChance.tables = p.tables.map TaggedTable.clearUseful := rfl

theorem tally_withoutChance (p : Predictor) :
    p.withoutChance.tally = p.tally.withoutResets := rfl

variable {p q : Predictor} {ctx : Context}

theorem withoutResets_resolvedTally (t : Tally) (ctx : Context) (o : Outcome) (a : Allocation)
    (reset reset' : Bool) : (resolvedTally t.withoutResets ctx o a reset').withoutResets
      = (resolvedTally t ctx o a reset).withoutResets := by
  unfold resolvedTally
  rw [Tally.countReset_eq, Tally.countReset_eq]
  cases ctx.isOverride <;> cases ctx.provider <;> cases ctx.providerOutcome == o <;> cases a <;> rfl

theorem lookup_withoutChance (q : Predictor) (pc : UInt64) :
    q.withoutChance.lookup pc = q.lookup pc := by
  have hslots : q.withoutChance.slots pc = q.slots pc := by
    unfold slots withoutChance
    rw [List.map_map]
    rfl
  have hprediction : ∀ k slots x, q.withoutChance.predictionOf k slots x
      = q.predictionOf k slots x := by
    intro k slots x
    cases x with
    | base => rfl
    | tagged i =>
      simp only [predictionOf, tables_withoutChance, entryAt?_clearUseful]
      cases entryAt? q.tables slots i <;> rfl
  unfold lookup
  rw [hslots]
  simp only [hprediction, tables_withoutChance, hits_clearUseful]
  rfl

theorem withoutChance_advance (q : Predictor) (pc : UInt64) (o : Outcome) :
    (q.advance pc o).withoutChance = q.withoutChance.advance pc o := by
  unfold advance withoutChance
  simp only [List.map_map]
  rfl

theorem clearUseful_trainedTables (q : Predictor) (ctx : Context) (o : Outcome) :
    (q.withoutChance.trainedTables ctx o).map TaggedTable.clearUseful
      = (q.trainedTables ctx o).map TaggedTable.clearUseful := by
  rw [trainedTables_eq_mapSlots, trainedTables_eq_mapSlots, tables_withoutChance]
  refine clearUseful_mapSlots _ _ fun i s e => ?_
  by_cases hprovider : ctx.provider = .tagged i
  · simp [slotEffect, hprovider, Entry.clearUseful_train]
  · simp [slotEffect, hprovider, Entry.clearUseful_clearUseful]

theorem allocated_of_right (p : Predictor) {o : Outcome} (h : ctx.outcome = o) :
    p.allocated ctx o = (p.trainedTables ctx o, .notNeeded) := by
  unfold allocated
  rw [if_pos h]

theorem clearUseful_afterReset (reset : Bool) (tables : List TaggedTable) :
    (if reset then tables.map TaggedTable.clearUseful else tables).map TaggedTable.clearUseful
      = tables.map TaggedTable.clearUseful := by
  cases reset with
  | false => rfl
  | true => exact map_clearUseful_clearUseful tables

theorem withoutChance_withoutChance (p : Predictor) :
    p.withoutChance.withoutChance = p.withoutChance := by
  show { p.withoutChance with
    tables := (p.tables.map TaggedTable.clearUseful).map TaggedTable.clearUseful } = _
  rw [map_clearUseful_clearUseful]
  rfl

theorem withoutChance_resolve_of_right {o : Outcome} (hp : q.pending = some ctx)
    (h : ctx.outcome = o) (pc target : UInt64) (kind : Kind) :
    (q.resolve pc target o kind).withoutChance =
      { (q.advance pc o).withoutChance with
        base := q.trainedBase ctx o
        tables := ((q.advance pc o).trainedTables ctx o).map TaggedTable.clearUseful
        overlay := q.trainedOverlay ctx o
        tally := (resolvedTally q.tally ctx o .notNeeded q.resetsNext).withoutResets
        pending := none } := by
  rw [resolve_of_some o pc target kind hp, allocated_of_right _ h]
  unfold withoutChance
  dsimp only
  rw [clearUseful_afterReset]

/-- A right prediction teaches the same whatever is forgotten before. -/
theorem withoutChance_resolve {o : Outcome} (h : ∀ ctx ∈ q.pending, ctx.outcome = o)
    (pc target : UInt64) (kind : Kind) : (q.withoutChance.resolve pc target o kind).withoutChance
      = (q.resolve pc target o kind).withoutChance := by
  have hadvance := withoutChance_withoutChance (q.advance pc o)
  rw [withoutChance_advance] at hadvance
  cases hp : q.pending with
  | none =>
    have hp' : q.withoutChance.pending = none := hp
    rw [resolve_of_none o pc target kind hp, resolve_of_none o pc target kind hp']
    show { (q.withoutChance.advance pc o).withoutChance with
      tally := q.tally.withoutResets.countOrphan.tick } = _
    rw [hadvance, ← withoutChance_advance]
    rfl
  | some ctx =>
    have hp' : q.withoutChance.pending = some ctx := hp
    rw [withoutChance_resolve_of_right hp (h ctx hp),
      withoutChance_resolve_of_right hp' (h ctx hp), hadvance, ← withoutChance_advance,
      clearUseful_trainedTables, tally_withoutChance,
      withoutResets_resolvedTally _ _ _ _ q.resetsNext]
    rfl

/-- What a call leaves does not depend on what is forgotten, unless a prediction was wrong. -/
theorem withoutChance_step {call : Call} (h : q.isMiss [] call = false) :
    (q.withoutChance.step call).withoutChance = (q.step call).withoutChance := by
  cases call with
  | predict pc =>
    rw [step_predict, step_predict]
    unfold predict
    rw [lookup_withoutChance]
    show { q.withoutChance.withoutChance with pending := some (q.lookup pc) } = _
    rw [withoutChance_withoutChance]
    rfl
  | resolve pc target o kind =>
    refine withoutChance_resolve (fun ctx hp => ?_) pc target kind
    rw [isMiss, run_nil, show q.pending = some ctx from hp] at h
    simpa using h
  | advance pc o =>
    rw [step_advance, step_advance, withoutChance_advance, withoutChance_advance,
      withoutChance_withoutChance]
  | clearUseful =>
    show (q.withoutChance.withoutChance).clearUseful = q.withoutChance.clearUseful
    rw [withoutChance_withoutChance]

/-! ## Two runs -/

/-- The number of calls before the first one that finds a wrong prediction, if there is one. -/
def firstMiss? (p : Predictor) : List Call → Option Nat
  | [] => none
  | call :: calls =>
    if p.isMiss [] call then some 0 else ((p.step call).firstMiss? calls).map (· + 1)

/-- The states differ at most in the usefulness of their entries, in what decides about it, and in
the count of resets. -/
structure Alike (p q : Predictor) : Prop where
  base : q.base = p.base
  frames : q.tables.map TaggedTable.frame = p.tables.map TaggedTable.frame
  entries : ∀ i j, (entryIn q.tables i j).map (fun e => (e.tag, e.counter))
    = (entryIn p.tables i j).map (fun e => (e.tag, e.counter))
  overlay : q.overlay = p.overlay
  global : q.global = p.global
  path : q.path = p.path
  pending : q.pending = p.pending
  tally : { q.tally with resets := 0 } = { p.tally with resets := 0 }

theorem alike_of_withoutChance_eq (h : q.withoutChance = p.withoutChance) : p.Alike q := by
  simp only [withoutChance, mk.injEq] at h
  obtain ⟨-, hbase, htables, hoverlay, hglobal, hpath, -, htally, hpending⟩ := h
  refine ⟨hbase, ?_, fun i j => ?_, hoverlay, hglobal, hpath, hpending, htally⟩
  · rw [← map_frame_clearUseful, htables, map_frame_clearUseful]
  · have hentry : ∀ tables : List TaggedTable,
        (entryIn (tables.map TaggedTable.clearUseful) i j).map (fun e => (e.tag, e.counter))
          = (entryIn tables i j).map (fun e => (e.tag, e.counter)) := by
      intro tables
      rw [entryIn_map (f := Entry.clearUseful) fun t j => by simp [TaggedTable.clearUseful],
        Option.map_map]
      rfl
    rw [← hentry, htables, hentry]

theorem predicted_eq_of_withoutChance_eq (h : q.withoutChance = p.withoutChance)
    (P : List Call → Bool) (after : List Call) (call : Call) :
    q.predicted P after call = p.predicted P after call := by
  cases call with
  | predict pc => rw [predicted, predicted, ← lookup_withoutChance, h, lookup_withoutChance]
  | _ => rfl

theorem alike_run (h : q.withoutChance = p.withoutChance) (calls : List Call) :
    q.firstMiss? calls = p.firstMiss? calls ∧
      ∀ n ≤ (p.firstMiss? calls).getD calls.length,
        (q.run (calls.take n)).withoutChance = (p.run (calls.take n)).withoutChance ∧
        q.allPredictions (calls.take n) = p.allPredictions (calls.take n) := by
  induction calls generalizing p q with
  | nil =>
    refine ⟨rfl, fun n _ => ?_⟩
    rw [List.take_nil]
    exact ⟨h, rfl⟩
  | cons call calls ih =>
    -- the same prediction is pending, so the call finds it wrong in both runs or in neither
    have hmiss : q.isMiss [] call = p.isMiss [] call := by
      unfold isMiss
      rw [run_nil, run_nil, (alike_of_withoutChance_eq h).pending]
    rw [firstMiss?, firstMiss?, hmiss]
    cases hp : p.isMiss [] call with
    | true =>
      refine ⟨rfl, fun n hn => ?_⟩
      obtain rfl : n = 0 := Nat.le_zero.1 hn
      exact ⟨h, rfl⟩
    | false =>
      have hstep : (q.step call).withoutChance = (p.step call).withoutChance := by
        rw [← withoutChance_step hp, ← withoutChance_step (hmiss.trans hp), h]
      obtain ⟨hfirst, hrun⟩ := ih hstep
      refine ⟨by rw [hfirst], fun n hn => ?_⟩
      cases n with
      | zero => exact ⟨h, rfl⟩
      | succ n =>
        have hle : n ≤ ((p.step call).firstMiss? calls).getD calls.length := by
          cases hf : (p.step call).firstMiss? calls
          all_goals
            rw [hf] at hn
            exact Nat.le_of_succ_le_succ hn
        obtain ⟨hstate, hpredictions⟩ := hrun n hle
        rw [List.take_succ_cons, run_cons, run_cons, allPredictions_cons, allPredictions_cons,
          hpredictions, predicted_eq_of_withoutChance_eq h]
        exact ⟨hstate, rfl⟩

/-- Two predictors whose configurations differ in the seed and the reset period alone, and the same
calls. The first call that finds a wrong prediction is the same one. Up to this call, or up to the
end, the same is predicted, which takes in the prediction that is found wrong, and the states are
alike. -/
theorem alike_until_miss {c : Config} {s : UInt64} {k : Nat} (hc : c.validate = .ok ())
    (hd : { c with seed := s, usefulResetLog2 := k }.validate = .ok ()) :
    ∃ p q, build c = .ok p ∧ build { c with seed := s, usefulResetLog2 := k } = .ok q ∧
      ∀ calls, q.firstMiss? calls = p.firstMiss? calls ∧
        ∀ n ≤ (p.firstMiss? calls).getD calls.length,
          (p.run (calls.take n)).Alike (q.run (calls.take n)) ∧
          q.allPredictions (calls.take n) = p.allPredictions (calls.take n) := by
  have hv := Config.validate_eq_ok.1 hc
  have hv' := Config.validate_eq_ok.1 hd
  refine ⟨ofConfig c, ofConfig { c with seed := s, usefulResetLog2 := k }, build_eq_ok.2 ⟨hv, rfl⟩,
    build_eq_ok.2 ⟨hv', rfl⟩, fun calls => ?_⟩
  have hstart : (ofConfig { c with seed := s, usefulResetLog2 := k }).withoutChance
      = (ofConfig c).withoutChance := rfl
  obtain ⟨hfirst, hrun⟩ := alike_run hstart calls
  refine ⟨hfirst, fun n hn => ?_⟩
  obtain ⟨hstate, hpredictions⟩ := hrun n hn
  exact ⟨alike_of_withoutChance_eq hstate, hpredictions⟩

/-- The first prediction is right, and the second is wrong. -/
theorem alike_until_miss_small :
    ∃ p q, build .small = .ok p ∧
      build { Config.small with seed := 7, usefulResetLog2 := 1 } = .ok q ∧
      let calls := [.predict 6, .resolve 6 0 .notTaken .ret, .predict 6, .resolve 6 0 .taken .ret]
      q.firstMiss? calls = some 3 ∧ (p.run (calls.take 3)).Alike (q.run (calls.take 3)) ∧
        q.allPredictions (calls.take 3) = p.allPredictions (calls.take 3) := by
  obtain ⟨p, q, hb, hb', h⟩ := alike_until_miss (c := .small) (s := 7) (k := 1) (by decide)
    (by decide)
  refine ⟨p, q, hb, hb', ?_⟩
  intro calls
  have hp : p.firstMiss? calls = some 3 := by
    rw [← (build_eq_ok.1 hb).2]
    decide +kernel
  obtain ⟨hfirst, hrun⟩ := h calls
  exact ⟨hfirst.trans hp, hrun 3 (by rw [hp]; decide)⟩

end Predictor

end BranchPrediction
