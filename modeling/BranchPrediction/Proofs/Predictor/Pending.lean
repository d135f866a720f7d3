import Mathlib.Data.List.Induction
import BranchPrediction.Proofs.Predictor.WellFormed

/-!
# Pending predictions

A pending prediction was made by the latest call to predict, and since then only histories moved on
and usefulness was cleared. `Answers` says what the tables have to do with it: each table has an
entry in the slot of the branch, the provider's entry is still the branch's, and no table with a
longer history knows the branch. It holds when the prediction is made (`WellFormed.answers_lookup`)
and does not stop to hold before the branch is resolved (`answers_pending`).
-/

namespace BranchPrediction

def Call.isQuiet : Call → Bool
  | .advance .. | .clearUseful => true
  | _ => false

def Call.isPredict : Call → Bool
  | .predict _ => true
  | _ => false

def endsInPredict (calls : List Call) : Bool :=
  ((calls.filter fun call => !call.isQuiet).getLast?).any Call.isPredict

theorem endsInPredict_concat (calls : List Call) (call : Call) :
    endsInPredict (calls ++ [call]) =
      if call.isQuiet then endsInPredict calls else call.isPredict := by
  unfold endsInPredict
  rw [List.filter_append]
  cases h : call.isQuiet <;> simp [h]

/-- What a prediction says of the entry `e` that table `i` has in slot `s` of the branch. -/
structure Context.Describes (ctx : Context) (i : Nat) (s : Slot) (e : Entry) : Prop where
  provider : ctx.provider = .tagged i → e.tag = some s.tag ∧ e.predict = ctx.providerOutcome
  longer : ctx.provider.next ≤ i → e.tag ≠ some s.tag

structure Predictor.Answers (p : Predictor) (ctx : Context) : Prop where
  baseIndex : ctx.baseIndex &&& p.base.mask = ctx.baseIndex
  base : ctx.provider = .base → (p.base.counter ctx.baseIndex).predict = ctx.providerOutcome
  tables : ∀ i t, p.tables[i]? = some t → ∃ s e, ctx.slots[i]? = some s ∧
    s.index &&& t.mask = s.index ∧ t.entries[s.index]? = some e ∧ ctx.Describes i s e

theorem BaseTable.index_and_mask (t : BaseTable) (pc : UInt64) :
    t.index pc &&& t.mask = t.index pc := by
  unfold BaseTable.index
  rw [Nat.and_assoc, Nat.and_self]

theorem TaggedTable.index_and_mask (t : TaggedTable) (pc : UInt64) (path : Option Register) :
    t.index pc path &&& t.mask = t.index pc path := by
  unfold TaggedTable.index
  rw [Nat.and_assoc, Nat.and_self]

namespace Predictor

variable {p q : Predictor} {ctx : Context}

theorem pending_resolve (p : Predictor) (pc target : UInt64) (o : Outcome) (kind : Kind) :
    (p.resolve pc target o kind).pending = none := by
  cases h : p.pending with
  | none => rw [resolve_of_none o pc target kind h]; exact h
  | some ctx => rw [resolve_of_some o pc target kind h]

/-- There is a pending prediction exactly after a call to predict that is not resolved. -/
theorem pending_isSome_run (hp : p.pending = none) (calls : List Call) :
    (p.run calls).pending.isSome = endsInPredict calls := by
  induction calls using List.reverseRecOn with
  | nil => rw [run_nil, hp]; rfl
  | append_singleton calls call ih =>
    rw [run_concat, endsInPredict_concat]
    cases call with
    | predict pc => rfl
    | resolve pc target o kind => rw [step_resolve, pending_resolve]; rfl
    | advance pc o => exact ih
    | clearUseful => exact ih

theorem pending_run (hp : p.pending = none) {calls : List Call}
    (h : (p.run calls).pending = some ctx) :
    ∃ before pc since, calls = before ++ .predict pc :: since ∧
      (∀ call ∈ since, call.isQuiet = true) ∧ ctx = (p.run before).lookup pc := by
  have hquiet : ∀ {l : List Call} {call : Call}, (∀ c ∈ l, c.isQuiet = true) →
      call.isQuiet = true → ∀ c ∈ l ++ [call], c.isQuiet = true := by
    intro l call hl hc
    rw [List.forall_mem_append]
    exact ⟨hl, by simpa using hc⟩
  induction calls using List.reverseRecOn with
  | nil => rw [run_nil, hp] at h; cases h
  | append_singleton calls call ih =>
    rw [run_concat] at h
    cases call with
    | predict pc => exact ⟨calls, pc, [], rfl, by simp, (Option.some.inj h).symm⟩
    | resolve pc target o kind =>
      rw [step_resolve, pending_resolve] at h
      cases h
    | advance pc o =>
      obtain ⟨before, pc₀, since, rfl, hs, hctx⟩ := ih h
      exact ⟨before, pc₀, since ++ [.advance pc o], by simp, hquiet hs rfl, hctx⟩
    | clearUseful =>
      obtain ⟨before, pc₀, since, rfl, hs, hctx⟩ := ih h
      exact ⟨before, pc₀, since ++ [.clearUseful], by simp, hquiet hs rfl, hctx⟩

section
variable {tables : List TaggedTable} {slots : List Slot}

theorem mem_hits {i : Nat} :
    i ∈ hits tables slots ↔ i < tables.length ∧ matchesAt tables slots i = true := by
  simp [hits]

theorem hits_pairwise (tables : List TaggedTable) (slots : List Slot) :
    (hits tables slots).Pairwise (· > ·) :=
  List.pairwise_reverse.2 (List.pairwise_lt_range.filter _)

theorem matchesAt_provider {i : Nat} (h : providerAt (hits tables slots) 0 = .tagged i) :
    matchesAt tables slots i = true := by
  unfold providerAt at h
  split at h
  · next j hj =>
    cases h
    exact (mem_hits.1 (List.mem_of_getElem? hj)).2
  · cases h

theorem matchesAt_longer {i : Nat} (h : (providerAt (hits tables slots) 0).next ≤ i)
    (hi : i < tables.length) : matchesAt tables slots i = false := by
  by_contra hm
  have hmem : i ∈ hits tables slots := mem_hits.2 ⟨hi, by simpa using hm⟩
  have hpair := hits_pairwise tables slots
  unfold providerAt at h
  cases hl : hits tables slots with
  | nil => rw [hl] at hmem; cases hmem
  | cons j rest =>
    rw [hl] at hmem hpair h
    change j + 1 ≤ i at h
    rcases List.mem_cons.1 hmem with rfl | hr
    · omega
    · have := (List.pairwise_cons.1 hpair).1 i hr
      omega

theorem matchesAt_eq {i : Nat} {t : TaggedTable} {s : Slot} (ht : tables[i]? = some t)
    (hs : slots[i]? = some s) : matchesAt tables slots i = (t.entry s.index).holds s.tag := by
  simp [matchesAt, entryAt?, ht, hs]

end

theorem Shaped.counter_of_base (h : p.Shaped) (hv : p.config.Valid) (pc : UInt64) :
    p.base.counters[p.base.index pc]? = some (p.base.counter (p.base.index pc)) := by
  have hbase : p.base.config.Valid := h.base_config ▸ hv.base
  have hk := BaseTable.getElem?_counters h.base hbase (p.base.index pc)
  rwa [BaseTable.index_and_mask] at hk

theorem Shaped.slot_of_table (h : p.Shaped) (hv : p.config.Valid) (pc : UInt64) {i : Nat}
    {t : TaggedTable} (ht : p.tables[i]? = some t) : ∃ s, (p.slots pc)[i]? = some s ∧
      s.index &&& t.mask = s.index ∧ t.entries[s.index]? = some (t.entry s.index) := by
  obtain ⟨hshape, hvalid⟩ := h.tables_valid hv t (List.mem_of_getElem? ht)
  have hmask := t.index_and_mask pc (p.path.map PathHistory.register)
  refine ⟨⟨t.index pc (p.path.map PathHistory.register), t.tag pc⟩, by simp [slots, ht], hmask, ?_⟩
  have he := hshape.getElem?_entries hvalid (t.index pc (p.path.map PathHistory.register))
  rwa [hmask] at he

/-! ## What the tables say of a prediction -/

/-- The two calls that may come before the branch is resolved keep all of the tables but folds and
usefulness. -/
theorem Answers.quiet (h : p.Answers ctx) {g : TaggedTable → TaggedTable}
    (hb : q.base = p.base) (ht : q.tables = p.tables.map g) (hmask : ∀ t, (g t).mask = t.mask)
    (hg : ∀ (t : TaggedTable) (j : Nat) (e : Entry), t.entries[j]? = some e →
      ∃ e' : Entry, (g t).entries[j]? = some e' ∧ e'.tag = e.tag ∧ e'.counter = e.counter) :
    q.Answers ctx := by
  refine ⟨by rw [hb]; exact h.baseIndex, by rw [hb]; exact h.base, fun i u hu => ?_⟩
  rw [ht, List.getElem?_map] at hu
  obtain ⟨t, ht', rfl⟩ := Option.map_eq_some_iff.1 hu
  obtain ⟨s, e, hs, hindex, he, hd⟩ := h.tables i t ht'
  obtain ⟨e', he', htag, hcounter⟩ := hg t s.index e he
  refine ⟨s, e', hs, (hmask t).symm ▸ hindex, he', fun hp => ?_, fun hl => ?_⟩
  · unfold Entry.predict
    rw [htag, hcounter]
    exact hd.provider hp
  · rw [htag]
    exact hd.longer hl

theorem Answers.advance (h : p.Answers ctx) (pc : UInt64) (o : Outcome) :
    (p.advance pc o).Answers ctx :=
  h.quiet rfl rfl (fun _ => rfl) fun _ _ e he => ⟨e, he, rfl, rfl⟩

theorem Answers.clearUseful (h : p.Answers ctx) : p.clearUseful.Answers ctx :=
  h.quiet rfl rfl (fun _ => rfl) fun t j e he =>
    ⟨e.clearUseful, by simp [TaggedTable.clearUseful, he], rfl, rfl⟩

theorem WellFormed.answers_lookup (h : p.WellFormed) (pc : UInt64) : p.Answers (p.lookup pc) := by
  refine ⟨BaseTable.index_and_mask .., fun hb => ?_, fun i t ht => ?_⟩
  · simp only [Predictor.lookup] at hb ⊢
    rw [hb]
    rfl
  · obtain ⟨s, hs, hmask, he⟩ := h.shaped.slot_of_table h.valid pc ht
    refine ⟨s, _, hs, hmask, he, fun hp => ?_, fun hl => ?_⟩
    · have hm := (matchesAt_eq ht hs).symm.trans (matchesAt_provider hp)
      refine ⟨by simpa [Entry.holds] using hm, ?_⟩
      simp only [Predictor.lookup] at hp ⊢
      rw [hp, predictionOf, entryAt?, ht, hs]
    · have hm := (matchesAt_eq ht hs).symm.trans
        (matchesAt_longer hl (List.getElem?_eq_some_iff.1 ht).1)
      simpa [Entry.holds] using hm

/-- The tables still answer to the pending prediction, whatever came since. -/
theorem answers_pending {c : Config} (hc : c.Valid) (calls : List Call) :
    ∀ ctx ∈ ((ofConfig c).run calls).pending, ((ofConfig c).run calls).Answers ctx := by
  induction calls using List.reverseRecOn with
  | nil => simp [ofConfig]
  | append_singleton calls call ih =>
    rw [run_concat]
    cases call with
    | predict pc =>
      intro ctx hctx
      obtain rfl := Option.some.inj hctx
      have ha := ((wellFormed_ofConfig hc).run calls).answers_lookup pc
      exact ⟨ha.baseIndex, ha.base, ha.tables⟩
    | resolve pc target o kind =>
      rw [step_resolve, pending_resolve]
      simp
    | advance pc o => exact fun ctx hctx => (ih ctx hctx).advance pc o
    | clearUseful => exact fun ctx hctx => (ih ctx hctx).clearUseful

end Predictor

end BranchPrediction
