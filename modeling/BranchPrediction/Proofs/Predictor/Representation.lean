import Mathlib.Data.List.Forall2
import BranchPrediction.Proofs.Predictor.ValidEntries

/-!
# What the tables hold over a run

`Intact` lists what the tables of a predictor keep from the start: their sizes, the widths of their
counters, the range of their weights, and in every entry without a tag and every weight without a
bit the value that was put there. `represents_run` proves it for every run, together with what
becomes of the valid entries.
-/

namespace BranchPrediction

/-- What an entry of a table keeps. -/
structure Entry.Intact (c : TableConfig) (e : Entry) : Prop where
  counter_max : e.counter.max = 2 ^ c.counter.bits - 1
  counter_le : e.counter.value ≤ e.counter.max
  useful_max : e.useful.max = 2 ^ c.usefulBits - 1
  useful_le : e.useful.value ≤ e.useful.max
  untagged : e.tag = none → e.counter = .ofConfig c.counter ∧ e.useful.value = 0
  tag_lt : ∀ tag, e.tag = some tag → tag < 2 ^ c.tagBits

structure Perceptron.Intact (c : OverlayConfig) (p : Perceptron) : Prop where
  length : p.weights.length = c.weights
  bias : Weight.InRange c.weightBits p.bias
  weights : ∀ w ∈ p.weights, Weight.InRange c.weightBits w
  /-- weights without a bit of local history -/
  unpaired : ∀ w ∈ p.weights.drop (min c.weights c.localLength), w = 0

/-- The tables of a predictor are as large as a configuration says, and hold what it allows. -/
structure Predictor.Intact (c : Config) (q : Predictor) : Prop where
  base_size : q.base.counters.size = c.base.size
  base : ∀ k ∈ q.base.counters, k.max = 2 ^ c.base.counter.bits - 1 ∧ k.value ≤ k.max
  tables : List.Forall₂
    (fun t tc => t.entries.size = tc.size ∧ ∀ e ∈ t.entries, e.Intact tc) q.tables c.tables
  overlay : Option.Rel
    (fun o oc => o.perceptrons.size = oc.perceptrons ∧ o.histories.size = oc.localRegisters ∧
      ∀ p ∈ o.perceptrons, p.Intact oc) q.overlay c.overlay

/-- Without a tag an entry is as it was built. -/
structure Entry.FreshUntilTagged (c : TableConfig) (e : Entry) : Prop where
  untagged : e.tag = none → e = .fresh c
  tag_lt : ∀ tag, e.tag = some tag → tag < 2 ^ c.tagBits

namespace Entry

variable {c : TableConfig} {e : Entry}

theorem age_fresh (c : TableConfig) : (fresh c).age = fresh c := by
  simp [age, fresh, Counter.decrement, Counter.add, Counter.set, Counter.ofWidth, Counter.weak]

theorem clearUseful_fresh (c : TableConfig) : (fresh c).clearUseful = fresh c := by
  simp [clearUseful, fresh, Counter.set]

theorem freshUntilTagged_fresh (c : TableConfig) : (fresh c).FreshUntilTagged c :=
  ⟨fun _ => rfl, fun _ h => by cases h⟩

theorem FreshUntilTagged.map (h : e.FreshUntilTagged c) {f : Entry → Entry}
    (htag : (f e).tag = e.tag) (hfresh : f (fresh c) = fresh c) : (f e).FreshUntilTagged c := by
  refine ⟨fun hnone => ?_, fun tag htag' => h.tag_lt tag (htag.symm.trans htag')⟩
  rw [h.untagged (htag.symm.trans hnone), hfresh]

theorem FreshUntilTagged.allocate (e : Entry) {tag : Nat} (h : tag < 2 ^ c.tagBits) (o : Outcome) :
    (e.allocate tag o).FreshUntilTagged c := by
  refine ⟨fun hnone => ?_, fun tag' htag => ?_⟩
  · cases hnone
  · obtain rfl := Option.some.inj htag
    exact h

theorem FreshUntilTagged.train (h : e.FreshUntilTagged c) (hv : e.isValid = true)
    (predicted alternate o : Outcome) : (e.train predicted alternate o).FreshUntilTagged c := by
  refine ⟨fun hnone => ?_, h.tag_lt⟩
  rw [isValid, show e.tag = none from hnone] at hv
  cases hv

end Entry

namespace Predictor

variable {c : Config}

/-- The tags of the pending prediction have the widths that the tables are configured for. -/
theorem pending_tag_lt (hc : c.Valid) {calls : List Call} {ctx : Context}
    (hp : ((ofConfig c).run calls).pending = some ctx) {i : Nat} {s : Slot} {tc : TableConfig}
    (hs : ctx.slots[i]? = some s) (htc : c.tables[i]? = some tc) : s.tag < 2 ^ tc.tagBits := by
  obtain ⟨before, pc, since, -, -, rfl⟩ := pending_run rfl hp
  rw [← tables_config_run hc before, List.getElem?_map, Option.map_eq_some_iff] at htc
  obtain ⟨t, ht, rfl⟩ := htc
  simp only [lookup, slots, List.getElem?_map, ht, Option.map_some, Option.some.injEq] at hs
  rw [← hs]
  exact t.tag_lt pc

theorem freshUntilTagged_run (hc : c.Valid) (calls : List Call) :
    ∀ t ∈ ((ofConfig c).run calls).tables, ∀ e ∈ t.entries, e.FreshUntilTagged t.config := by
  refine forall_entries_run hc (C := fun _ => True)
    (fun tc _ => Entry.freshUntilTagged_fresh tc) ?_ fun _ _ => trivial
  intro before call _ i tc htc e e' hstep
  induction hstep with
  | kept => exact id
  | trained resolved pending valid predict => exact fun h => h.train valid ..
  | aged => exact fun h => h.map rfl (Entry.age_fresh tc)
  | allocated resolved pending slot =>
    exact fun _ => .allocate _ (pending_tag_lt hc pending slot htc) _
  | cleared hstep ih => exact fun h => (ih h).map rfl (Entry.clearUseful_fresh tc)

/-- What training keeps of an overlay is kept by every call. -/
theorem forall_overlay_run {p : Predictor} {P : Overlay → Prop}
    (train : ∀ (o : Overlay) v outcome, P o → P (o.train v outcome)) (start : ∀ o ∈ p.overlay, P o)
    (calls : List Call) : ∀ o ∈ (p.run calls).overlay, P o := by
  refine run_induction (P := fun q => ∀ o ∈ q.overlay, P o) start ?_ calls
  intro q call hq
  cases call with
  | resolve pc target outcome kind =>
    rw [step_resolve]
    cases hp : q.pending with
    | none =>
      rw [resolve_of_none outcome pc target kind hp]
      exact hq
    | some ctx =>
      rw [resolve_of_some outcome pc target kind hp]
      intro o ho
      dsimp only [trainedOverlay] at ho
      split at ho
      · next v _ hv _ =>
        obtain rfl := Option.some.inj ho
        exact train v _ _ (hq v hv)
      · exact hq o ho
  | _ => exact hq

end Predictor

namespace Perceptron

def UnpairedZero (c : OverlayConfig) (p : Perceptron) : Prop :=
  ∀ w ∈ p.weights.drop c.inputs, w = 0

theorem unpairedZero_zero (c : OverlayConfig) : (zero c.weights).UnpairedZero c :=
  fun _ hw => List.eq_of_mem_replicate (List.mem_of_mem_drop hw)

theorem UnpairedZero.train {c : OverlayConfig} {p : Perceptron} (h : p.UnpairedZero c)
    {input : List Bool} (hi : input.length = c.inputs) (o : Outcome) :
    (p.train input o c.weightBits).UnpairedZero c := by
  intro w hw
  unfold Perceptron.train at hw
  rw [← hi, drop_trainWeights, hi] at hw
  exact h w hw

end Perceptron

namespace Predictor

variable {c : Config}

theorem unpairedZero_run (c : Config) (calls : List Call) :
    ∀ o ∈ ((ofConfig c).run calls).overlay, ∀ p ∈ o.perceptrons, p.UnpairedZero o.config := by
  refine forall_overlay_run (P := fun o => ∀ p ∈ o.perceptrons, p.UnpairedZero o.config) ?_ ?_ calls
  · intro o v outcome h
    have hinput : (o.inputOf v.history).length = o.config.inputs := by simp [Overlay.inputOf]
    exact forall_mem_modify h _ fun p hp => Perceptron.UnpairedZero.train hp hinput outcome
  · intro o ho p hp
    obtain ⟨oc, -, rfl⟩ := Option.map_eq_some_iff.1 ho
    obtain rfl := (Array.mem_replicate.1 hp).2
    exact Perceptron.unpairedZero_zero oc

theorem intact_run (hc : c.Valid) (calls : List Call) :
    ((ofConfig c).run calls).Intact c := by
  have hw := (wellFormed_ofConfig hc).run calls
  have hbase := base_config_run hc calls
  have htables := tables_config_run hc calls
  have hoverlay := overlay_config_run hc calls
  constructor
  case base_size => rw [hw.base.size, hbase]
  case base =>
    intro k hk
    exact ⟨by rw [hw.base.counters k hk, hbase], k.value_le_max⟩
  case tables =>
    rw [← htables, List.forall₂_map_right_iff, List.forall₂_same]
    intro t ht
    have hshape := hw.tables t ht
    refine ⟨hshape.size, fun e he => ?_⟩
    have hfits := hshape.entries e he
    have hfresh := freshUntilTagged_run hc calls t ht e he
    refine ⟨hfits.counter, e.counter.value_le_max, hfits.useful, e.useful.value_le_max, ?_,
      hfresh.tag_lt⟩
    intro hnone
    rw [hfresh.untagged hnone]
    exact ⟨rfl, by simp [Entry.fresh]⟩
  case overlay =>
    cases ho : ((ofConfig c).run calls).overlay with
    | none =>
      rw [ho] at hoverlay
      rw [← hoverlay]
      exact .none
    | some o =>
      have hshape := hw.overlay o ho
      have hzero := unpairedZero_run c calls o ho
      rw [ho] at hoverlay
      rw [← hoverlay]
      refine .some ⟨hshape.size, hshape.histories, fun p hp => ?_⟩
      have hfits := hshape.perceptrons p hp
      exact ⟨hfits.length, hfits.bias, hfits.weights, hzero p hp⟩

/-- After every run the tables are intact and hold no more valid entries than allocations were
counted. From there on valid entries stay valid, and each resolved branch adds at most one. -/
theorem represents_run {c : Config} (hc : c.validate = .ok ()) :
    ∃ p, build c = .ok p ∧ ∀ calls, let q := p.run calls
      q.Intact c ∧ q.validCount ≤ q.tally.allocations ∧
      ∀ more, let r := q.run more
        (∀ i j e, entryIn q.tables i j = some e → e.isValid = true →
          ∃ e', entryIn r.tables i j = some e' ∧ e'.isValid = true) ∧
        r.validCount ≤ q.validCount + more.countP Call.isResolve := by
  have hv := Config.validate_eq_ok.1 hc
  refine ⟨ofConfig c, build_eq_ok.2 ⟨hv, rfl⟩, fun calls => ?_⟩
  refine ⟨intact_run hv calls, validCount_le_allocations c calls, fun more => ⟨?_, ?_⟩⟩
  · intro i j e he hvalid
    rw [← run_append]
    exact isValid_run hv calls more he hvalid
  · exact validCount_run_le _ more

/-- A wrong prediction makes an entry of the first table valid, and it outlives the next ones. -/
theorem represents_run_small : ∃ p, build .small = .ok p ∧
    let q := p.run [.predict 6, .resolve 6 0 .taken .directBranch]
    let more := [.predict 6, .clearUseful, .resolve 6 0 .notTaken .ret, .predict 9]
    q.validCount = 1 ∧ q.validCount ≤ q.tally.allocations ∧ (q.run more).validCount ≤ 2 ∧
      ∃ e, entryIn (q.run more).tables 0 1 = some e ∧ e.isValid = true := by
  obtain ⟨p, hb, h⟩ := represents_run (c := .small) (by decide)
  obtain ⟨-, hp⟩ := build_eq_ok.1 hb
  refine ⟨p, hb, ?_⟩
  subst hp
  obtain ⟨-, hle, hmore⟩ := h [.predict 6, .resolve 6 0 .taken .directBranch]
  obtain ⟨hvalid, hcount⟩ :=
    hmore [.predict 6, .clearUseful, .resolve 6 0 .notTaken .ret, .predict 9]
  have hone : ((ofConfig .small).run [.predict 6, .resolve 6 0 .taken .directBranch]).validCount
      = 1 := by decide +kernel
  refine ⟨hone, hle, ?_, hvalid 0 1 ⟨⟨3, 2, by decide⟩, ⟨1, 0, by decide⟩, some 1⟩ ?_ rfl⟩
  · rw [hone] at hcount
    exact hcount
  · decide +kernel

end Predictor

end BranchPrediction
