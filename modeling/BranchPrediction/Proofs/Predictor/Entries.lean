import BranchPrediction.Proofs.Predictor.Footprint

/-!
# What a call does to an entry

`EntryStep` lists what one call can do to an entry of a tagged table, and `entryIn_step` says that
this list is complete. Only an entry that holds a tag is trained, because the provider is found by
its tag and keeps it until the branch is resolved. What every change of the list keeps holds of all
entries after every run (`forall_entries_run`).
-/

namespace BranchPrediction

def Call.resolved? : Call → Option Outcome
  | .resolve _ _ outcome _ => some outcome
  | _ => none

/-- What a call in state `q` can do to an entry of tagged table `i`. -/
inductive EntryStep (q : Predictor) (call : Call) (i : Nat) : Entry → Entry → Prop where
  | kept (e : Entry) : EntryStep q call i e e
  /-- the entry provided the pending prediction -/
  | trained {e : Entry} {ctx : Context} {o : Outcome} (resolved : call.resolved? = some o)
      (pending : q.pending = some ctx) (valid : e.isValid = true)
      (predict : e.predict = ctx.providerOutcome) :
      EntryStep q call i e (e.train ctx.providerOutcome ctx.alternateOutcome o)
  | aged (e : Entry) : EntryStep q call i e e.age
  | allocated {e : Entry} {ctx : Context} {s : Slot} {o : Outcome}
      (resolved : call.resolved? = some o) (pending : q.pending = some ctx)
      (slot : ctx.slots[i]? = some s) : EntryStep q call i e (e.allocate s.tag o)
  | cleared {e e' : Entry} (h : EntryStep q call i e e') : EntryStep q call i e e'.clearUseful

theorem EntryStep.afterReset {q : Predictor} {call : Call} {i : Nat} {e e' : Entry}
    (h : EntryStep q call i e e') (reset : Bool) : EntryStep q call i e (e'.afterReset reset) := by
  cases reset with
  | true => exact h.cleared
  | false => exact h

theorem rel_map {α : Type} {R : α → α → Prop} {x : Option α} {f : α → α}
    (h : ∀ a, x = some a → R a (f a)) : Option.Rel R x (x.map f) := by
  cases x with
  | none => exact .none
  | some a => exact .some (h a rfl)

namespace Predictor

variable {q : Predictor} {ctx : Context}

/-- In the slot of the branch, the provider is trained, an entry in a longer table ages, is replaced
or stays, and an entry in a shorter table stays. -/
theorem entryStep_slotEffect {call : Call} {o : Outcome} {aged : Bool} {made : Option Nat} {i : Nat}
    {s : Slot} {e : Entry} (hcall : call.resolved? = some o) (hp : q.pending = some ctx)
    (hmade : ∀ k, made = some k → ctx.provider.next ≤ k) (hs : ctx.slots[i]? = some s)
    (hd : ctx.Describes i s e) : EntryStep q call i e (slotEffect ctx o aged made i s e) := by
  by_cases hprov : ctx.provider = .tagged i
  · obtain ⟨htag, hpredict⟩ := hd.provider hprov
    rw [slotEffect_provider s e hprov hmade]
    exact .trained hcall hp (by rw [Entry.isValid, htag]; rfl) hpredict
  · by_cases hnext : ctx.provider.next ≤ i
    · by_cases hm : made = some i
      · rw [slotEffect_allocated s e hnext hm]
        exact .allocated hcall hp hs
      · rw [slotEffect_longer s e hnext hm]
        cases aged with
        | true => exact .aged e
        | false => exact .kept e
    · rw [slotEffect_shorter s e (Nat.lt_of_not_le hnext) hprov hmade]
      exact .kept e

theorem Answers.describes (ha : q.Answers ctx) {i : Nat} {s : Slot} {e : Entry}
    (hs : ctx.slots[i]? = some s) (he : entryIn q.tables i s.index = some e) :
    ctx.Describes i s e := by
  unfold entryIn at he
  obtain ⟨t, ht, he⟩ := Option.bind_eq_some_iff.1 he
  obtain ⟨s', e', hs', -, he', hd⟩ := ha.tables i t ht
  rw [hs] at hs'
  cases hs'
  rw [he] at he'
  cases he'
  exact hd

theorem Answers.entryStep_resolve (ha : q.Answers ctx) (hp : q.pending = some ctx)
    (pc target : UInt64) (o : Outcome) (kind : Kind) (i j : Nat) :
    Option.Rel (EntryStep q (.resolve pc target o kind) i) (entryIn q.tables i j)
      (entryIn (q.resolve pc target o kind).tables i j) := by
  obtain ⟨aged, made, -, -, hmade, hslot, helse⟩ := ha.entryIn_resolve hp pc target o kind
  by_cases hj : ∃ s, ctx.slots[i]? = some s ∧ s.index = j
  · obtain ⟨s, hs, rfl⟩ := hj
    rw [hslot i s hs]
    apply rel_map
    intro e he
    have hstep : EntryStep q (.resolve pc target o kind) i e (slotEffect ctx o aged made i s e) :=
      entryStep_slotEffect rfl hp (fun k hk => (hmade k hk).2.1) hs (ha.describes hs he)
    exact hstep.afterReset _
  · rw [helse i j fun s hs hsj => hj ⟨s, hs, hsj⟩]
    apply rel_map
    intro e _
    exact (EntryStep.kept e).afterReset _

theorem entryIn_step (ha : ∀ ctx ∈ q.pending, q.Answers ctx) (call : Call) (i j : Nat) :
    Option.Rel (EntryStep q call i) (entryIn q.tables i j) (entryIn (q.step call).tables i j) := by
  have hkept : ∀ x : Option Entry, Option.Rel (EntryStep q call i) x x := by
    intro x
    cases x with
    | none => exact .none
    | some e => exact .some (.kept e)
  cases call with
  | predict pc => exact hkept _
  | advance pc o =>
    rw [step_advance, entryIn_advance]
    exact hkept _
  | clearUseful =>
    rw [step_clearUseful, clearUseful,
      entryIn_map (f := Entry.clearUseful) fun t j => by simp [TaggedTable.clearUseful]]
    apply rel_map
    intro e _
    exact (EntryStep.kept e).cleared
  | resolve pc target o kind =>
    rw [step_resolve]
    cases hp : q.pending with
    | none =>
      rw [resolve_of_none o pc target kind hp]
      dsimp only
      rw [entryIn_advance]
      exact hkept _
    | some ctx => exact (ha ctx hp).entryStep_resolve hp pc target o kind i j

/-- What holds of fresh entries and is kept by the changes that calls make holds of every entry
after every run of such calls. -/
theorem forall_entries_run {c : Config} (hc : c.Valid) {P : TableConfig → Entry → Prop}
    {C : Call → Prop} (fresh : ∀ tc ∈ c.tables, P tc (.fresh tc))
    (step : ∀ before call, C call → ∀ i tc, c.tables[i]? = some tc →
      ∀ e e', EntryStep ((ofConfig c).run before) call i e e' → P tc e → P tc e')
    {calls : List Call} (hcalls : ∀ call ∈ calls, C call) :
    ∀ t ∈ ((ofConfig c).run calls).tables, ∀ e ∈ t.entries, P t.config e := by
  have hplace : ∀ i j tc e, c.tables[i]? = some tc →
      entryIn ((ofConfig c).run calls).tables i j = some e → P tc e := by
    induction calls using List.reverseRecOn with
    | nil =>
      intro i j tc e htc he
      have hcfg := List.mem_of_getElem? htc
      simp only [run_nil, entryIn, ofConfig, List.getElem?_mapIdx, htc, Option.map_some,
        Option.bind_some, TaggedTable.ofConfig] at he
      obtain rfl := (Array.mem_replicate.1 (Array.mem_of_getElem? he)).2
      exact fresh tc hcfg
    | append_singleton calls call ih =>
      intro i j tc e' htc he'
      rw [List.forall_mem_append] at hcalls
      have hrel := entryIn_step (answers_pending hc calls) call i j
      rw [run_concat] at he'
      rw [he'] at hrel
      cases he : entryIn ((ofConfig c).run calls).tables i j with
      | none => rw [he] at hrel; cases hrel
      | some e =>
        rw [he] at hrel
        cases hrel with
        | some hstep =>
          exact step calls call (hcalls.2 call (by simp)) i tc htc e e' hstep
            (ih hcalls.1 i j tc e htc he)
  intro t ht e he
  obtain ⟨i, hi⟩ := List.mem_iff_getElem?.1 ht
  obtain ⟨j, hj⟩ := Array.mem_iff_getElem?.1 he
  refine hplace i j t.config e ?_ ?_
  · rw [← tables_config_run hc calls, List.getElem?_map, hi]
    rfl
  · rw [entryIn, hi]
    exact hj

end Predictor

end BranchPrediction
