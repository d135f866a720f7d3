import BranchPrediction.Proofs.Predictor.Pending

/-!
# What the tally adds up to

Nine counts are kept in different places of a resolve. `resolvedTally_counts` says what one resolved
prediction adds to each of them, `Balanced` how they stand to each other, and `tally_run` what they
are after any run, in terms of the calls alone: an override always goes against the provider, and
every wrong prediction makes one attempt to allocate.
-/

namespace BranchPrediction

def Call.isResolve : Call → Bool
  | .resolve .. => true
  | _ => false

/-- How many calls satisfy `P`, which is given the calls before. -/
def countCalls (P : List Call → Call → Bool) (calls : List Call) : Nat :=
  (List.range calls.length).countP fun n => calls[n]?.any (P (calls.take n))

theorem countCalls_concat (P : List Call → Call → Bool) (calls : List Call) (call : Call) :
    countCalls P (calls ++ [call]) = countCalls P calls + (P calls call).toNat := by
  unfold countCalls
  rw [List.length_append, List.length_singleton, List.range_succ, List.countP_append,
    List.countP_singleton]
  congr 1
  · refine List.countP_congr fun n hn => ?_
    have hlt : n < calls.length := List.mem_range.1 hn
    rw [List.getElem?_append_left hlt, List.take_append_of_le_length (Nat.le_of_lt hlt)]
  · simp
    cases P calls call <;> rfl

def Predictor.isMiss (p : Predictor) (before : List Call) : Call → Bool
  | .resolve _ _ o _ => (p.run before).pending.any fun ctx => ctx.outcome != o
  | _ => false

/-! ## One resolved prediction -/

theorem sum_map_modify {α : Type} {f : α → α} {g : α → Nat} {l : List α} {i : Nat} {x : α}
    (h : l[i]? = some x) : ((l.modify i f).map g).sum + g x = (l.map g).sum + g (f x) := by
  induction l generalizing i with
  | nil => cases h
  | cons a l ih =>
    cases i with
    | zero =>
      obtain rfl := Option.some.inj h
      rw [List.modify_zero_cons, List.map_cons, List.map_cons, List.sum_cons, List.sum_cons]
      omega
    | succ i =>
      have := ih h
      rw [List.modify_succ_cons, List.map_cons, List.map_cons, List.sum_cons, List.sum_cons]
      omega

namespace Tally

theorem sum_modify {l : List Nat} {i : Nat} (h : i < l.length) :
    (l.modify i (· + 1)).sum = l.sum + 1 := by
  have hsum := sum_map_modify (f := (· + 1)) (g := fun n => n) (List.getElem?_eq_getElem h)
  simp only [List.map_id_fun', id_eq] at hsum
  omega

variable (t : Tally)

theorem countOverride_eq (override hit : Bool) : t.countOverride override hit =
    { t with
      overrides := t.overrides + override.toNat
      overrideHits := t.overrideHits + (override && hit).toNat } := by
  cases override <;> cases hit <;> rfl

theorem countReset_eq (reset : Bool) :
    t.countReset reset = { t with resets := t.resets + reset.toNat } := by
  cases reset <;> rfl

theorem countAllocation_eq (a : Allocation) : ∃ made failed,
    t.countAllocation a = { t with allocations := made, failedAllocations := failed } ∧
      made + failed = t.allocations + t.failedAllocations + (a != .notNeeded).toNat := by
  cases a with
  | notNeeded => exact ⟨_, _, rfl, rfl⟩
  | failed => exact ⟨_, _, rfl, rfl⟩
  | made i => exact ⟨_, _, rfl, Nat.add_right_comm ..⟩

theorem countProvider_eq (provider : Provider) (hit : Bool)
    (h : ∀ i, provider = .tagged i → i < t.taggedHits.length ∧ i < t.taggedMisses.length) :
    ∃ baseHits baseMisses taggedHits taggedMisses,
      t.countProvider provider hit = { t with baseHits, baseMisses, taggedHits, taggedMisses } ∧
        baseHits + taggedHits.sum = t.tableHits + hit.toNat ∧
        baseMisses + taggedMisses.sum = t.tableMisses + (!hit).toNat := by
  unfold tableHits tableMisses
  cases provider with
  | base =>
    cases hit
    · exact ⟨_, _, _, _, rfl, rfl, Nat.add_right_comm ..⟩
    · exact ⟨_, _, _, _, rfl, Nat.add_right_comm .., rfl⟩
  | tagged i =>
    obtain ⟨hh, hm⟩ := h i rfl
    cases hit
    · exact ⟨_, _, _, _, rfl, rfl, by rw [sum_modify hm]; rfl⟩
    · exact ⟨_, _, _, _, rfl, by rw [sum_modify hh]; rfl, rfl⟩

/-- What a resolved prediction adds to the counts. -/
structure Resolved (t u : Tally) (ctx : Context) (o : Outcome) (reset : Bool) : Prop where
  clock : u.clock = t.clock + 1
  orphans : u.orphans = t.orphans
  hits : u.tableHits = t.tableHits + (ctx.providerOutcome == o).toNat
  misses : u.tableMisses = t.tableMisses + (!ctx.providerOutcome == o).toNat
  attempts : u.allocations + u.failedAllocations
    = t.allocations + t.failedAllocations + (ctx.outcome != o).toNat
  overrides : u.overrides = t.overrides + ctx.isOverride.toNat
  overrideHits : u.overrideHits = t.overrideHits + (ctx.isOverride && ctx.outcome == o).toNat
  resets : u.resets = t.resets + reset.toNat

theorem resolved_resolvedTally {ctx : Context} {o : Outcome} {a : Allocation}
    (ha : a = .notNeeded ↔ ctx.outcome = o) (reset : Bool)
    (h : ∀ i, ctx.provider = .tagged i → i < t.taggedHits.length ∧ i < t.taggedMisses.length) :
    t.Resolved (Predictor.resolvedTally t ctx o a reset) ctx o reset := by
  obtain ⟨bh, bm, th, tm, hprovider, hhits, hmisses⟩ :=
    countProvider_eq (t.countOverride ctx.isOverride (ctx.outcome == o)) ctx.provider
      (ctx.providerOutcome == o) (by rw [countOverride_eq]; exact h)
  obtain ⟨made, failed, halloc, hattempts⟩ := countAllocation_eq
    { t.countOverride ctx.isOverride (ctx.outcome == o) with
      baseHits := bh, baseMisses := bm, taggedHits := th, taggedMisses := tm } a
  have hneeded : (a != .notNeeded) = (ctx.outcome != o) := by
    rw [Bool.eq_iff_iff, bne_iff_ne, bne_iff_ne, ne_eq, ne_eq, ha]
  rw [countOverride_eq] at hhits hmisses hattempts
  rw [hneeded] at hattempts
  unfold Predictor.resolvedTally
  rw [hprovider, halloc, countReset_eq, countOverride_eq]
  exact ⟨rfl, rfl, hhits, hmisses, hattempts, rfl, rfl, rfl⟩

/-- How the counts stand to each other. -/
structure Balanced (t : Tally) (overlay : Bool) : Prop where
  lookups : t.tableHits + t.tableMisses + t.orphans = t.clock
  attempts : t.allocations + t.failedAllocations + 2 * t.overrideHits = t.tableMisses + t.overrides
  overrideHits_le : t.overrideHits ≤ t.overrides
  overrides_le : t.overrides + t.orphans ≤ t.clock
  resets_le : t.resets + t.orphans ≤ t.clock
  noOverlay : overlay = false → t.overrides = 0

variable {t} {u : Tally} {ctx : Context} {o : Outcome} {reset : Bool}

theorem balanced_zero (tables : Nat) (overlay : Bool) : (zero tables).Balanced overlay := by
  have hsum : (List.replicate tables 0).sum = 0 := by simp
  refine ⟨?_, ?_, Nat.le_refl 0, Nat.le_refl 0, Nat.le_refl 0, fun _ => rfl⟩
  all_goals simp [zero, tableHits, tableMisses, hsum]

/-- An override goes against the provider, so of the two just one is right. -/
theorem attempts_eq {c : Config} (h : ctx.Fits c) (o : Outcome) :
    (ctx.outcome != o).toNat + 2 * (ctx.isOverride && ctx.outcome == o).toNat
      = (!ctx.providerOutcome == o).toNat + ctx.isOverride.toNat := by
  have hnone := h.outcome
  unfold Context.isOverride
  cases hv : ctx.vote with
  | none =>
    rw [hnone hv]
    cases ctx.providerOutcome <;> cases o <;> rfl
  | some v => cases ctx.outcome <;> cases ctx.providerOutcome <;> cases o <;> rfl

theorem Balanced.resolved {c : Config} (hb : t.Balanced c.overlay.isSome) (h : ctx.Fits c)
    (hr : t.Resolved u ctx o reset) : u.Balanced c.overlay.isSome := by
  have hattempts := attempts_eq h o
  have hover : (ctx.isOverride && ctx.outcome == o).toNat ≤ ctx.isOverride.toNat := by
    cases ctx.isOverride
    · exact Nat.le_refl 0
    · exact Bool.toNat_le _
  have hone : ctx.isOverride.toNat ≤ 1 := Bool.toNat_le _
  have hreset : reset.toNat ≤ 1 := Bool.toNat_le _
  have hhit : (ctx.providerOutcome == o).toNat + (!ctx.providerOutcome == o).toNat = 1 := by
    cases ctx.providerOutcome == o <;> rfl
  constructor
  case lookups => rw [hr.hits, hr.misses, hr.orphans, hr.clock, ← hb.lookups]; omega
  case attempts =>
    have := hb.attempts
    rw [hr.attempts, hr.overrideHits, hr.misses, hr.overrides]
    omega
  case overrideHits_le =>
    have := hb.overrideHits_le
    rw [hr.overrideHits, hr.overrides]
    omega
  case overrides_le =>
    have := hb.overrides_le
    rw [hr.overrides, hr.orphans, hr.clock]
    omega
  case resets_le =>
    have := hb.resets_le
    rw [hr.resets, hr.orphans, hr.clock]
    omega
  case noOverlay =>
    intro hno
    have hvote : ctx.vote.isSome = false := h.vote_isSome.trans hno
    rw [hr.overrides, hb.noOverlay hno, Context.isOverride, hvote]
    rfl

theorem Balanced.orphan {overlay : Bool} (hb : t.Balanced overlay) :
    t.countOrphan.tick.Balanced overlay where
  lookups := congrArg (· + 1) hb.lookups
  attempts := hb.attempts
  overrideHits_le := hb.overrideHits_le
  overrides_le := Nat.succ_le_succ hb.overrides_le
  resets_le := Nat.succ_le_succ hb.resets_le
  noOverlay := hb.noOverlay

end Tally

/-! ## Runs -/

namespace Predictor

variable {p : Predictor}

theorem WellFormed.tally_resolve (h : p.WellFormed) {ctx : Context} (hp : p.pending = some ctx)
    (pc target : UInt64) (o : Outcome) (kind : Kind) :
    p.tally.Resolved (p.resolve pc target o kind).tally ctx o p.resetsNext := by
  obtain ⟨-, -, -, hneeded, -⟩ := (p.advance pc o).allocated_cases ctx o
  rw [resolve_of_some o pc target kind hp]
  refine Tally.resolved_resolvedTally _ hneeded _ fun i hi => ?_
  have hlt := h.tables_length ▸ (h.pending ctx hp).provider i hi
  exact ⟨h.hits ▸ hlt, h.misses ▸ hlt⟩

/-- The counts that are kept of the calls are what the calls say. -/
structure Counts (p : Predictor) (calls : List Call) (t : Tally) : Prop where
  clock : t.clock = countCalls (fun _ call => call.isResolve) calls
  orphans : t.orphans
    = countCalls (fun before call => call.isResolve && !endsInPredict before) calls
  attempts : t.allocations + t.failedAllocations = countCalls p.isMiss calls
  balanced : t.Balanced p.config.overlay.isSome

theorem Counts.skip {calls : List Call} {t : Tally} (h : p.Counts calls t) {call : Call}
    (hc : call.isResolve = false) : p.Counts (calls ++ [call]) t := by
  have hmiss : p.isMiss calls call = false := by
    cases call with
    | resolve pc target o kind => cases hc
    | _ => rfl
  refine ⟨?_, ?_, ?_, h.balanced⟩
  all_goals rw [countCalls_concat]
  · rw [hc, h.clock]; rfl
  · rw [hc, h.orphans]; rfl
  · rw [hmiss, h.attempts]; rfl

theorem counts_run {c : Config} (hc : c.Valid) (calls : List Call) :
    (ofConfig c).Counts calls ((ofConfig c).run calls).tally := by
  induction calls using List.reverseRecOn with
  | nil => exact ⟨rfl, rfl, rfl, Tally.balanced_zero ..⟩
  | append_singleton calls call ih =>
    have hw := (wellFormed_ofConfig hc).run calls
    have hends := pending_isSome_run (p := ofConfig c) rfl calls
    rw [run_concat]
    cases call with
    | resolve pc target o kind =>
      obtain ⟨hclock, horphans, hattempts, hbalanced⟩ := ih
      rw [step_resolve]
      cases hp : ((ofConfig c).run calls).pending with
      | none =>
        rw [resolve_of_none o pc target kind hp]
        rw [hp] at hends
        refine ⟨?_, ?_, ?_, hbalanced.orphan⟩
        all_goals rw [countCalls_concat]
        · rw [← hclock]; rfl
        · rw [← horphans, ← hends]; rfl
        · rw [← hattempts, isMiss, hp]; rfl
      | some ctx =>
        have hr := hw.tally_resolve hp pc target o kind
        have hfits := hw.pending ctx hp
        rw [config_run] at hfits
        rw [hp] at hends
        refine ⟨?_, ?_, ?_, hbalanced.resolved hfits hr⟩
        all_goals rw [countCalls_concat]
        · rw [hr.clock, hclock]; rfl
        · rw [hr.orphans, horphans, ← hends]; rfl
        · rw [hr.attempts, hattempts, isMiss, hp]; rfl
    | predict pc => exact ih.skip rfl
    | advance pc o => exact ih.skip rfl
    | clearUseful => exact ih.skip rfl

/-- After any run, the counts are what the calls say and stand to each other as they should. -/
theorem tally_run {c : Config} (hc : c.validate = .ok ()) :
    ∃ p, build c = .ok p ∧ ∀ calls, let t := (p.run calls).tally
      t.clock = countCalls (fun _ call => call.isResolve) calls ∧
      t.orphans = countCalls (fun before call => call.isResolve && !endsInPredict before) calls ∧
      t.tableHits + t.tableMisses + t.orphans = t.clock ∧
      t.allocations + t.failedAllocations = countCalls p.isMiss calls ∧
      t.allocations + t.failedAllocations + 2 * t.overrideHits = t.tableMisses + t.overrides ∧
      t.overrideHits ≤ t.overrides ∧ t.overrides ≤ t.clock - t.orphans ∧
      t.resets ≤ t.clock - t.orphans ∧
      (c.overlay = none → t.overrides = 0 ∧ t.overrideHits = 0) := by
  have hv := Config.validate_eq_ok.1 hc
  refine ⟨ofConfig c, build_eq_ok.2 ⟨hv, rfl⟩, fun calls => ?_⟩
  obtain ⟨hclock, horphans, hattempts, hb⟩ := counts_run hv calls
  have hle := hb.overrideHits_le
  refine ⟨hclock, horphans, hb.lookups, hattempts, hb.attempts, hle,
    Nat.le_sub_of_add_le hb.overrides_le, Nat.le_sub_of_add_le hb.resets_le, fun hno => ?_⟩
  have hzero := hb.noOverlay (show c.overlay.isSome = false by rw [hno]; rfl)
  exact ⟨hzero, by omega⟩

theorem tally_run_small : ∃ p, build .small = .ok p ∧
    (p.run [.resolve 6 0 .taken .ret, .predict 6, .advance 5 .taken,
      .resolve 6 0 .taken .directBranch]).tally.clock = 2 ∧
    (p.run [.resolve 6 0 .taken .ret, .predict 6, .advance 5 .taken,
      .resolve 6 0 .taken .directBranch]).tally.orphans = 1 := by
  obtain ⟨p, hb, h⟩ := tally_run (c := .small) (by decide)
  obtain ⟨hclock, horphans, -⟩ := h [.resolve 6 0 .taken .ret, .predict 6, .advance 5 .taken,
    .resolve 6 0 .taken .directBranch]
  exact ⟨p, hb, hclock.trans (by decide), horphans.trans (by decide)⟩

end Predictor

end BranchPrediction
