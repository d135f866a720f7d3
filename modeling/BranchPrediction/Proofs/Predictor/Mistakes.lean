import BranchPrediction.Proofs.Predictor.Conservation
import BranchPrediction.Proofs.Predictor.Entries

/-!
# Mistakes when all branches go one way

If every branch that is resolved goes the same way, a valid entry is never wrong: it was allocated
with that outcome and only moved toward it. A miss of the base table moves one of its counters a
step toward the outcome, and nothing moves a counter away. So the misses so far and the steps that
are left (`BaseTable.stepsTo`) add up to the steps at the start, however long the run
(`Sided.run`, `mistakes_run`).
-/

namespace BranchPrediction

/-- Whether a branch that the call resolves goes the given way. Other calls are free. -/
def Call.ResolvesAs (o : Outcome) (call : Call) : Prop :=
  ∀ o' ∈ call.resolved?, o' = o

instance (o : Outcome) (call : Call) : Decidable (call.ResolvesAs o) :=
  inferInstanceAs (Decidable (∀ o' ∈ call.resolved?, o' = o))

namespace Counter

/-- The number of steps from the value of a counter to one that predicts an outcome. -/
def stepsTo (k : Counter) : Outcome → Nat
  | .taken => k.max / 2 + 1 - k.value
  | .notTaken => k.value - k.max / 2

theorem predict_eq_iff {k : Counter} {o : Outcome} : k.predict = o ↔ k.stepsTo o = 0 := by
  cases o with
  | taken =>
    have hpredict : k.predict = .taken ↔ k.max / 2 < k.value := by
      simp [predict, isHigh, Outcome.ofBool]
    rw [hpredict, stepsTo]
    omega
  | notTaken =>
    have hpredict : k.predict = .notTaken ↔ ¬ k.max / 2 < k.value := by
      simp [predict, isHigh, Outcome.ofBool]
    rw [hpredict, stepsTo]
    omega

theorem stepsTo_update {k : Counter} (h : 0 < k.max) (o : Outcome) :
    (k.update o).stepsTo o = k.stepsTo o - 1 := by
  have hle := k.value_le_max
  cases o
  · simp only [stepsTo, update, max_add, value_add, Outcome.sign]
    omega
  · simp only [stepsTo, update, max_add, value_add, Outcome.sign]
    omega

/-- A step toward the outcome that a counter predicts does not change its mind. -/
theorem predict_update {k : Counter} (h : 0 < k.max) {o : Outcome} (hk : k.predict = o) :
    (k.update o).predict = o := by
  rw [predict_eq_iff] at hk ⊢
  rw [stepsTo_update h, hk]

end Counter

theorem ValidWidth.max_pos {bits : Nat} (h : ValidWidth bits) : 0 < 2 ^ bits - 1 := by
  have hpow : 2 ^ 1 ≤ 2 ^ bits := Nat.pow_le_pow_right (by decide) h.1
  omega

/-- The number of steps that a counter of the base table has to go at the start before it predicts
an outcome. -/
def BaseConfig.stepsTo (c : BaseConfig) : Outcome → Nat
  | .taken => 2 ^ (c.counter.bits - 1) - (Counter.ofConfig c.counter).value
  | .notTaken => (Counter.ofConfig c.counter).value + 1 - 2 ^ (c.counter.bits - 1)

theorem BaseConfig.stepsTo_ofConfig {c : BaseConfig} (h : ValidWidth c.counter.bits) (o : Outcome) :
    (Counter.ofConfig c.counter).stepsTo o = c.stepsTo o := by
  obtain ⟨n, hn⟩ : ∃ n, c.counter.bits = n + 1 := ⟨c.counter.bits - 1, by have := h.1; omega⟩
  have hpos := Nat.two_pow_pos n
  have hmax : (Counter.ofConfig c.counter).max = 2 * 2 ^ n - 1 := by
    rw [Counter.max_ofConfig, hn, Nat.pow_succ, Nat.mul_comm]
  have hbits : c.counter.bits - 1 = n := by omega
  cases o
  · simp only [Counter.stepsTo, stepsTo, hmax, hbits]
    omega
  · simp only [Counter.stepsTo, stepsTo, hmax, hbits]
    omega

namespace BaseTable

/-- The steps that all counters together have to go before the table predicts nothing but the
outcome. -/
def stepsTo (t : BaseTable) (o : Outcome) : Nat :=
  (t.counters.toList.map (·.stepsTo o)).sum

theorem stepsTo_ofConfig {c : BaseConfig} (h : ValidWidth c.counter.bits) (o : Outcome) :
    (ofConfig c).stepsTo o = c.size * c.stepsTo o := by
  unfold stepsTo ofConfig
  rw [Array.toList_replicate, List.map_replicate, BaseConfig.stepsTo_ofConfig h,
    List.sum_replicate_nat]

/-- A counter that predicts the other outcome goes one step, and one that predicts the outcome has
none to go. -/
theorem WellFormed.stepsTo_update {t : BaseTable} (h : t.WellFormed) (hv : t.config.Valid) (i : Nat)
    (o : Outcome) :
    (t.update i o).stepsTo o + ((t.counter i).predict != o).toNat = t.stepsTo o := by
  have hi := BaseTable.getElem?_counters h.size hv i
  have hmax : 0 < (t.counter i).max := by
    rw [h.counters _ (Array.mem_of_getElem? hi)]
    exact hv.counter.max_pos
  have hsum := sum_map_modify (f := (·.update o)) (g := (·.stepsTo o))
    ((Array.getElem?_toList ..).trans hi)
  have hlist : (t.update i o).counters.toList
      = t.counters.toList.modify (i &&& t.mask) (·.update o) := Array.toList_modify
  unfold stepsTo
  rw [hlist]
  rw [Counter.stepsTo_update hmax] at hsum
  by_cases hp : (t.counter i).predict = o
  · have hzero := Counter.predict_eq_iff.1 hp
    rw [hp, bne_self_eq_false]
    simp only [Bool.toNat_false]
    omega
  · have hpos : (t.counter i).stepsTo o ≠ 0 := fun h0 => hp (Counter.predict_eq_iff.2 h0)
    rw [show ((t.counter i).predict != o) = true from bne_iff_ne.2 hp]
    simp only [Bool.toNat_true]
    omega

end BaseTable

/-- An entry that, once it is valid, predicts an outcome. -/
structure Entry.Sided (o : Outcome) (e : Entry) : Prop where
  room : 0 < e.counter.max
  predict : e.isValid = true → e.predict = o

namespace Predictor

theorem entry_sided_run {c : Config} (hc : c.Valid) {o : Outcome} {calls : List Call}
    (h : ∀ call ∈ calls, call.ResolvesAs o) :
    ∀ t ∈ ((ofConfig c).run calls).tables, ∀ e ∈ t.entries, e.Sided o := by
  refine forall_entries_run hc (P := fun _ e => e.Sided o) ?_ ?_ h
  · intro tc htc
    refine ⟨?_, fun hv => by cases hv⟩
    rw [(Entry.fits_fresh tc).counter]
    exact (hc.tables tc htc).counter.max_pos
  · intro before call hcall i tc _ e e' hstep
    induction hstep with
    | kept => exact id
    | aged => exact fun he => ⟨he.room, he.predict⟩
    | cleared _ ih => exact fun he => ⟨(ih he).room, (ih he).predict⟩
    | trained resolved pending valid predict =>
      intro he
      obtain rfl := hcall _ resolved
      exact ⟨he.room, fun _ => Counter.predict_update he.room (he.predict valid)⟩
    | allocated resolved pending slot =>
      intro he
      obtain rfl := hcall _ resolved
      exact ⟨he.room, fun _ => Counter.predict_setWeak _ _ he.room⟩

theorem misses_resolvedTally (t : Tally) {ctx : Context} {o : Outcome} (a : Allocation)
    (reset : Bool) (h : ctx.provider ≠ .base → ctx.providerOutcome = o) :
    (resolvedTally t ctx o a reset).taggedMisses = t.taggedMisses ∧
      (resolvedTally t ctx o a reset).baseMisses
        = t.baseMisses + (ctx.providerOutcome != o).toNat := by
  have halloc : ∀ t : Tally, (t.countAllocation a).taggedMisses = t.taggedMisses ∧
      (t.countAllocation a).baseMisses = t.baseMisses := by
    intro t
    cases a <;> exact ⟨rfl, rfl⟩
  unfold resolvedTally Tally.tick
  rw [Tally.countReset_eq, Tally.countOverride_eq]
  dsimp only
  rw [(halloc _).1, (halloc _).2]
  cases hp : ctx.provider with
  | base =>
    rw [bne]
    cases ctx.providerOutcome == o <;> exact ⟨rfl, rfl⟩
  | tagged i =>
    rw [h (by simp [hp]), beq_self_eq_true, bne_self_eq_false]
    exact ⟨rfl, rfl⟩

/-! ## Runs -/

/-- No tagged table was wrong, and every miss of the base table was a step of one of its counters
toward the outcome. -/
structure Sided (o : Outcome) (q : Predictor) : Prop where
  taggedMisses : ∀ n ∈ q.tally.taggedMisses, n = 0
  baseMisses : q.tally.baseMisses + q.base.stepsTo o = q.config.base.size * q.config.base.stepsTo o

variable {o : Outcome}

theorem sided_ofConfig {c : Config} (hc : c.Valid) : (ofConfig c).Sided o where
  taggedMisses _ hn := List.eq_of_mem_replicate hn
  baseMisses := by
    change 0 + (BaseTable.ofConfig c.base).stepsTo o = _
    rw [BaseTable.stepsTo_ofConfig hc.base.counter, Nat.zero_add]
    rfl

theorem Answers.providerOutcome_eq {q : Predictor} {ctx : Context} (ha : q.Answers ctx)
    (hw : q.WellFormed) (hp : q.pending = some ctx)
    (he : ∀ t ∈ q.tables, ∀ e ∈ t.entries, e.Sided o) (hb : ctx.provider ≠ .base) :
    ctx.providerOutcome = o := by
  cases hprov : ctx.provider with
  | base => exact absurd hprov hb
  | tagged i =>
    have hlt : i < q.tables.length :=
      hw.tables_length ▸ (hw.pending ctx hp).provider i hprov
    have ht := List.getElem?_eq_getElem hlt
    obtain ⟨s, e, -, -, hentry, hd⟩ := ha.tables i _ ht
    obtain ⟨htag, hpredict⟩ := hd.provider hprov
    rw [← hpredict]
    refine (he _ (List.getElem_mem hlt) e (Array.mem_of_getElem? hentry)).predict ?_
    rw [Entry.isValid, htag]
    rfl

/-- Resolving a prediction moves at most one counter of the base table, and only when it counts a
miss there. -/
theorem Sided.resolve {q : Predictor} {ctx : Context} (h : q.Sided o) (hw : q.WellFormed)
    (ha : q.Answers ctx) (hp : q.pending = some ctx)
    (he : ∀ t ∈ q.tables, ∀ e ∈ t.entries, e.Sided o) (pc target : UInt64) (kind : Kind) :
    (q.resolve pc target o kind).Sided o := by
  have htagged := ha.providerOutcome_eq hw hp he
  obtain ⟨htm, hbm⟩ := misses_resolvedTally q.tally
    ((q.advance pc o).allocated ctx o).2 q.resetsNext htagged
  rw [resolve_of_some o pc target kind hp]
  refine ⟨fun n hn => h.taggedMisses n (htm ▸ hn), ?_⟩
  have hsum := h.baseMisses
  dsimp only
  rw [hbm]
  cases hprov : ctx.provider with
  | base =>
    have hstep := hw.base.stepsTo_update (hw.base_config ▸ hw.valid.base) ctx.baseIndex o
    rw [ha.base hprov] at hstep
    rw [trainedBase, hprov]
    dsimp only
    rw [Nat.add_assoc, Nat.add_comm _ (BaseTable.stepsTo _ o), hstep]
    exact hsum
  | tagged i =>
    rw [trainedBase, hprov, htagged (by simp [hprov]), bne_self_eq_false]
    exact hsum

/-- The misses of the base table and the steps that are left add up to the steps at the start. -/
theorem sided_run {c : Config} (hc : c.Valid) {calls : List Call}
    (h : ∀ call ∈ calls, call.ResolvesAs o) : ((ofConfig c).run calls).Sided o := by
  induction calls using List.reverseRecOn with
  | nil => exact sided_ofConfig hc
  | append_singleton calls call ih =>
    rw [List.forall_mem_append] at h
    have hq := ih h.1
    rw [run_concat]
    cases call with
    | predict pc => exact ⟨hq.taggedMisses, hq.baseMisses⟩
    | advance pc o' => exact ⟨hq.taggedMisses, hq.baseMisses⟩
    | clearUseful => exact ⟨hq.taggedMisses, hq.baseMisses⟩
    | resolve pc target o' kind =>
      have hcall := h.2 (.resolve pc target o' kind) (List.mem_singleton_self _)
      obtain rfl : o' = o := hcall o' rfl
      rw [step_resolve]
      cases hp : ((ofConfig c).run calls).pending with
      | none =>
        rw [resolve_of_none o' pc target kind hp]
        exact ⟨hq.taggedMisses, hq.baseMisses⟩
      | some ctx =>
        exact hq.resolve ((wellFormed_ofConfig hc).run calls) (answers_pending hc calls ctx hp) hp
          (entry_sided_run hc h.1) pc target kind

/-- If all branches are resolved with one outcome, valid entries predict it at all times, no tagged
table ever misses, and the base table misses no more than its counters have steps to go. Without an
overlay, this bounds the wrong predictions. -/
theorem mistakes_run {c : Config} (hc : c.validate = .ok ()) (o : Outcome) :
    ∃ p, build c = .ok p ∧ ∀ calls, (∀ call ∈ calls, call.ResolvesAs o) → let q := p.run calls
      (∀ t ∈ q.tables, ∀ e ∈ t.entries, e.isValid = true → e.predict = o) ∧
      q.tally.taggedMisses = List.replicate c.tables.length 0 ∧
      q.tally.baseMisses ≤ c.base.size * c.base.stepsTo o ∧
      (c.overlay = none → countCalls p.isMiss calls ≤ c.base.size * c.base.stepsTo o) := by
  have hv := Config.validate_eq_ok.1 hc
  refine ⟨ofConfig c, build_eq_ok.2 ⟨hv, rfl⟩, fun calls hcalls => ?_⟩
  have hw := (wellFormed_ofConfig hv).run calls
  have hs := sided_run hv hcalls
  have hlen : ((ofConfig c).run calls).tally.taggedMisses.length = c.tables.length := by
    rw [hw.misses, hw.tables_length, config_run]
    rfl
  have htagged := List.eq_replicate_iff.2 ⟨hlen, hs.taggedMisses⟩
  have hbase : ((ofConfig c).run calls).tally.baseMisses ≤ c.base.size * c.base.stepsTo o := by
    have hsum := hs.baseMisses
    rw [config_run] at hsum
    change _ = c.base.size * c.base.stepsTo o at hsum
    omega
  refine ⟨fun t ht e he => (entry_sided_run hv hcalls t ht e he).predict, htagged, hbase, ?_⟩
  intro hno
  obtain ⟨-, -, hattempts, hb⟩ := counts_run hv calls
  have hover := hb.noOverlay (show c.overlay.isSome = false by rw [hno]; rfl)
  have hmisses := hb.attempts
  unfold Tally.tableMisses at hmisses
  rw [htagged, List.sum_replicate_nat, Nat.mul_zero] at hmisses
  omega

/-- Two counters, each one step from predicting taken, allow two wrong predictions. -/
theorem mistakes_run_small : ∃ p, build { Config.small with overlay := none } = .ok p ∧
    let calls := [.predict 6, .resolve 6 0 .taken .directBranch, .advance 3 .notTaken, .predict 9,
      .clearUseful, .resolve 9 0 .taken .directBranch, .resolve 1 0 .taken .ret]
    (p.run calls).tally.taggedMisses = [0, 0] ∧ (p.run calls).tally.baseMisses ≤ 2 ∧
      countCalls p.isMiss calls ≤ 2 := by
  obtain ⟨p, hb, h⟩ := mistakes_run (c := { Config.small with overlay := none }) (by decide) .taken
  obtain ⟨-, htagged, hbase, hmisses⟩ := h [.predict 6, .resolve 6 0 .taken .directBranch,
    .advance 3 .notTaken, .predict 9, .clearUseful, .resolve 9 0 .taken .directBranch,
    .resolve 1 0 .taken .ret] (by decide)
  exact ⟨p, hb, htagged, hbase, hmisses rfl⟩

end Predictor

end BranchPrediction
