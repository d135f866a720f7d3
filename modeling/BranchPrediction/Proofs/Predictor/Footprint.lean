import BranchPrediction.Proofs.Predictor.Pending

/-!
# The footprint of a resolved prediction

Which counters and entries change when a pending prediction is resolved, and how. Training,
allocation and the reset all run in one call, after the histories moved on; `Footprint` puts them
side by side, one clause for each part of the tables, and `footprint_resolve` proves it for every
state that a run reaches.
-/

namespace BranchPrediction

def Entry.afterReset (reset : Bool) (e : Entry) : Entry :=
  if reset then e.clearUseful else e

@[simp] theorem Entry.afterReset_true : Entry.afterReset true = Entry.clearUseful := rfl

@[simp] theorem Entry.afterReset_false : Entry.afterReset false = id := rfl

/-- How the tables of `q` and `r`, before and after a prediction is resolved, differ. The entries of
the branch in tables with longer histories may have `aged`, and the one in table `made` is
replaced. -/
structure Footprint (ctx : Context) (outcome : Outcome) (reset aged : Bool) (made : Option Nat)
    (q r : Predictor) : Prop where
  base : ctx.provider = .base → ctx.baseIndex < q.base.counters.size ∧
    ∀ j, r.base.counters[j]? = if j = ctx.baseIndex then q.base.counters[j]?.map (·.update outcome)
      else q.base.counters[j]?
  base_kept : ctx.provider ≠ .base → r.base = q.base
  provider : ∀ i, ctx.provider = .tagged i → ∃ s e, ctx.slots[i]? = some s ∧
    entryIn q.tables i s.index = some e ∧ e.tag = some s.tag ∧ e.predict = ctx.providerOutcome ∧
    entryIn r.tables i s.index = some (.afterReset reset
      { e with
        counter := e.counter.update outcome
        useful :=
          if ctx.providerOutcome = ctx.alternateOutcome then e.useful
          else if ctx.providerOutcome = outcome then e.useful.increment
          else e.useful.decrement })
  aged_wrong : aged = true → ctx.outcome ≠ outcome
  allocated : ∀ i, made = some i → ctx.outcome ≠ outcome ∧ ctx.provider.next ≤ i ∧
    ∃ s e, ctx.slots[i]? = some s ∧ entryIn q.tables i s.index = some e ∧ e.tag ≠ some s.tag ∧
      entryIn r.tables i s.index = some ⟨e.counter.setWeak outcome, e.useful.set 0, some s.tag⟩
  /-- tables with longer histories in which nothing is allocated -/
  longer : ∀ i < q.tables.length, ctx.provider.next ≤ i → made ≠ some i →
    ∃ s e, ctx.slots[i]? = some s ∧ entryIn q.tables i s.index = some e ∧ e.tag ≠ some s.tag ∧
      entryIn r.tables i s.index = some (.afterReset reset
        (if aged then { e with useful := e.useful.decrement } else e))
  /-- tables with shorter histories, and places where the branch is not looked up -/
  elsewhere : ∀ i j, (i < ctx.provider.next ∧ ctx.provider ≠ .tagged i) ∨
      (∀ s, ctx.slots[i]? = some s → s.index ≠ j) →
    entryIn r.tables i j = (entryIn q.tables i j).map (.afterReset reset)

section
variable {ctx : Context} {outcome : Outcome} {aged : Bool} {made : Option Nat} {i : Nat}
  (s : Slot) (e : Entry)

theorem slotEffect_provider (hp : ctx.provider = .tagged i)
    (hm : ∀ k, made = some k → ctx.provider.next ≤ k) :
    slotEffect ctx outcome aged made i s e
      = e.train ctx.providerOutcome ctx.alternateOutcome outcome := by
  have hnext : ¬ ctx.provider.next ≤ i := by rw [hp]; exact Nat.not_succ_le_self i
  have hmade : made ≠ some i := fun h => hnext (hm i h)
  unfold slotEffect
  rw [if_pos hp, if_neg hmade, if_neg fun h => hnext h.2]

theorem provider_ne_of_next_le (hn : ctx.provider.next ≤ i) : ctx.provider ≠ .tagged i := by
  intro hp
  rw [hp] at hn
  exact Nat.not_succ_le_self i hn

theorem slotEffect_allocated (hn : ctx.provider.next ≤ i) (hm : made = some i) :
    slotEffect ctx outcome aged made i s e
      = ⟨e.counter.setWeak outcome, e.useful.set 0, some s.tag⟩ := by
  unfold slotEffect
  rw [if_neg (provider_ne_of_next_le hn), if_pos hm]
  split <;> rfl

theorem slotEffect_longer (hn : ctx.provider.next ≤ i) (hm : made ≠ some i) :
    slotEffect ctx outcome aged made i s e = if aged then e.age else e := by
  unfold slotEffect
  rw [if_neg (provider_ne_of_next_le hn), if_neg hm]
  simp only [hn, and_true]

theorem slotEffect_shorter (hn : i < ctx.provider.next) (hp : ctx.provider ≠ .tagged i)
    (hm : ∀ k, made = some k → ctx.provider.next ≤ k) :
    slotEffect ctx outcome aged made i s e = e := by
  have hnext : ¬ ctx.provider.next ≤ i := Nat.not_le_of_lt hn
  have hmade : made ≠ some i := fun h => hnext (hm i h)
  unfold slotEffect
  rw [if_neg hp, if_neg hmade, if_neg fun h => hnext h.2]

end

theorem entryIn_map {tables : List TaggedTable} {g : TaggedTable → TaggedTable} {f : Entry → Entry}
    (h : ∀ (t : TaggedTable) (j : Nat), (g t).entries[j]? = t.entries[j]?.map f) (i j : Nat) :
    entryIn (tables.map g) i j = (entryIn tables i j).map f := by
  unfold entryIn
  rw [List.getElem?_map]
  cases tables[i]? with
  | none => rfl
  | some t => exact h t j

namespace Predictor

variable {q : Predictor} {ctx : Context}

theorem entryIn_advance (q : Predictor) (pc : UInt64) (o : Outcome) (i j : Nat) :
    entryIn (q.advance pc o).tables i j = entryIn q.tables i j := by
  unfold advance
  rw [entryIn_map (f := id) (fun t j => by simp [TaggedTable.follow]), Option.map_id, id]

theorem Answers.mask_eq (ha : q.Answers ctx) {i : Nat} {t : TaggedTable} {s : Slot}
    (ht : q.tables[i]? = some t) (hs : ctx.slots[i]? = some s) : s.index &&& t.mask = s.index := by
  obtain ⟨s', -, hs', hindex, -⟩ := ha.tables i t ht
  rw [hs] at hs'
  cases hs'
  exact hindex

theorem Answers.entryIn_resolve (ha : q.Answers ctx) (hp : q.pending = some ctx)
    (pc target : UInt64) (o : Outcome) (kind : Kind) : ∃ aged made,
    made = ((q.advance pc o).allocated ctx o).2.table? ∧
    (aged = true → ctx.outcome ≠ o) ∧
    (∀ i, made = some i →
      ctx.outcome ≠ o ∧ ctx.provider.next ≤ i ∧ i < q.tables.length) ∧
    (∀ i s, ctx.slots[i]? = some s → entryIn (q.resolve pc target o kind).tables i s.index =
      (entryIn q.tables i s.index).map fun e =>
        .afterReset q.resetsNext (slotEffect ctx o aged made i s e)) ∧
    ∀ i j, (∀ s, ctx.slots[i]? = some s → s.index ≠ j) →
      entryIn (q.resolve pc target o kind).tables i j =
        (entryIn q.tables i j).map (.afterReset q.resetsNext) := by
  obtain ⟨aged, htables, haged, hneeded, hmade⟩ := (q.advance pc o).allocated_cases ctx o
  -- the reset comes last, over whatever the allocation left
  have hentry : ∀ i j, entryIn (q.resolve pc target o kind).tables i j =
      (entryIn ((q.advance pc o).allocated ctx o).1 i j).map (.afterReset q.resetsNext) := by
    intro i j
    rw [resolve_of_some o pc target kind hp]
    dsimp only
    cases q.resetsNext with
    | true =>
      rw [if_pos rfl]
      exact entryIn_map (fun t j => by simp [TaggedTable.clearUseful]) i j
    | false => simp
  have hadv := ha.advance pc o
  refine ⟨aged, _, rfl, haged, fun i hi => ?_, fun i s hs => ?_, fun i j hj => ?_⟩
  · cases hal : ((q.advance pc o).allocated ctx o).2 with
    | made k =>
      rw [hal] at hi
      cases hi
      obtain ⟨hnext, hlt⟩ := hmade i hal
      refine ⟨fun he => ?_, hnext, Nat.lt_of_lt_of_eq hlt (List.length_map _)⟩
      rw [hneeded.2 he] at hal
      cases hal
    | notNeeded => rw [hal] at hi; cases hi
    | failed => rw [hal] at hi; cases hi
  · rw [hentry, htables, entryIn_mapSlots, entryIn_advance, Option.map_map]
    cases ht : (q.advance pc o).tables[i]? with
    | none =>
      have hnone : entryIn q.tables i s.index = none := by
        rw [← entryIn_advance q pc o, entryIn, ht]
        rfl
      rw [hnone]
      rfl
    | some t =>
      congr 1
      funext e
      simp only [Function.comp_apply, hs, hadv.mask_eq ht hs, if_true]
  · rw [hentry, htables, entryIn_mapSlots, entryIn_advance, Option.map_map]
    congr 1
    funext e
    simp only [Function.comp_apply]
    split
    · next t s ht hs => rw [hadv.mask_eq ht hs, if_neg (hj s hs)]
    · rfl

theorem WellFormed.trainedBase_footprint (hw : q.WellFormed) (ha : q.Answers ctx) (o : Outcome)
    (hb : ctx.provider = .base) : ctx.baseIndex < q.base.counters.size ∧
      ∀ j, (q.trainedBase ctx o).counters[j]? = if j = ctx.baseIndex then
        q.base.counters[j]?.map (·.update o) else q.base.counters[j]? := by
  have hk :=
    BaseTable.getElem?_counters hw.base.size (hw.base_config ▸ hw.valid.base) ctx.baseIndex
  rw [ha.baseIndex] at hk
  refine ⟨(Array.getElem?_eq_some_iff.1 hk).1, fun j => ?_⟩
  unfold Predictor.trainedBase
  rw [hb]
  change (q.base.counters.modify (ctx.baseIndex &&& q.base.mask) (·.update o))[j]? = _
  rw [ha.baseIndex, Array.getElem?_modify]
  simp only [eq_comm]

theorem WellFormed.footprint_allocated (hw : q.WellFormed) (ha : q.Answers ctx)
    (hp : q.pending = some ctx) (pc target : UInt64) (o : Outcome) (kind : Kind) : ∃ aged,
    Footprint ctx o q.resetsNext aged ((q.advance pc o).allocated ctx o).2.table? q
      (q.resolve pc target o kind) := by
  obtain ⟨aged, made, hm, haged, hmade, hslot, helse⟩ := ha.entryIn_resolve hp pc target o kind
  have hlonger : ∀ k, made = some k → ctx.provider.next ≤ k := fun k hk => (hmade k hk).2.1
  have hbase : (q.resolve pc target o kind).base = q.trainedBase ctx o := by
    rw [resolve_of_some o pc target kind hp]
  -- the slot of the branch in a table, and the entry there
  have htable : ∀ i < q.tables.length, ∃ s e, ctx.slots[i]? = some s ∧
      entryIn q.tables i s.index = some e ∧ ctx.Describes i s e := by
    intro i hi
    have ht := List.getElem?_eq_getElem hi
    obtain ⟨s, e, hs, -, he, hd⟩ := ha.tables i _ ht
    exact ⟨s, e, hs, entryIn_eq_some.2 ⟨_, ht, he⟩, hd⟩
  refine ⟨aged, ?_⟩
  rw [← hm]
  constructor
  case base => exact fun hb => hbase ▸ hw.trainedBase_footprint ha o hb
  case base_kept =>
    intro hb
    rw [hbase, Predictor.trainedBase]
    split
    · next h => exact absurd h hb
    · rfl
  case provider =>
    intro i hi
    obtain ⟨s, e, hs, he, hd⟩ := htable i (hw.tables_length ▸ (hw.pending ctx hp).provider i hi)
    obtain ⟨htag, hpredict⟩ := hd.provider hi
    refine ⟨s, e, hs, he, htag, hpredict, ?_⟩
    rw [hslot i s hs, he, Option.map_some, slotEffect_provider s e hi hlonger]
    rfl
  case aged_wrong => exact haged
  case allocated =>
    intro i hi
    obtain ⟨hwrong, hnext, hlt⟩ := hmade i hi
    obtain ⟨s, e, hs, he, hd⟩ := htable i hlt
    refine ⟨hwrong, hnext, s, e, hs, he, hd.longer hnext, ?_⟩
    rw [hslot i s hs, he, Option.map_some, slotEffect_allocated s e hnext hi]
    cases q.resetsNext <;> rfl
  case longer =>
    intro i hi hnext hm
    obtain ⟨s, e, hs, he, hd⟩ := htable i hi
    refine ⟨s, e, hs, he, hd.longer hnext, ?_⟩
    rw [hslot i s hs, he, Option.map_some, slotEffect_longer s e hnext hm]
    rfl
  case elsewhere =>
    rintro i j (⟨hshort, hprov⟩ | hj)
    · by_cases hj : ∃ s, ctx.slots[i]? = some s ∧ s.index = j
      · obtain ⟨s, hs, rfl⟩ := hj
        rw [hslot i s hs]
        simp only [slotEffect_shorter s _ hshort hprov hlonger]
      · exact helse i j fun s hs hsj => hj ⟨s, hs, hsj⟩
    · exact helse i j hj

theorem WellFormed.footprint (hw : q.WellFormed) (ha : q.Answers ctx) (hp : q.pending = some ctx)
    (pc target : UInt64) (o : Outcome) (kind : Kind) : ∃ aged made,
    Footprint ctx o q.resetsNext aged made q (q.resolve pc target o kind) := by
  obtain ⟨aged, hfoot⟩ := hw.footprint_allocated ha hp pc target o kind
  exact ⟨aged, _, hfoot⟩

/-- In every state that a run reaches with a pending prediction: the prediction was made by the
latest call to predict, where the branch hashed then, and resolving it, for whatever branch, leaves
its footprint on the tables and nothing else but the histories. -/
theorem footprint_resolve {c : Config} (hc : c.validate = .ok ()) :
    ∃ p, build c = .ok p ∧ ∀ calls ctx, (p.run calls).pending = some ctx →
      (∃ before pc since, calls = before ++ .predict pc :: since ∧
        (∀ call ∈ since, call.isQuiet = true) ∧ ctx = (p.run before).lookup pc) ∧
      ∀ pc target o kind, let q := p.run calls; let r := q.resolve pc target o kind
        (∃ aged made, Footprint ctx o q.resetsNext aged made q r) ∧
        r.base.config = q.base.config ∧
        r.tables.map TaggedTable.frame = (q.advance pc o).tables.map TaggedTable.frame := by
  have hv := Config.validate_eq_ok.1 hc
  refine ⟨ofConfig c, build_eq_ok.2 ⟨hv, rfl⟩, fun calls ctx hp => ⟨pending_run rfl hp, ?_⟩⟩
  intro pc target o kind
  have hw := (wellFormed_ofConfig hv).run calls
  have ha := answers_pending hv calls ctx hp
  refine ⟨hw.footprint ha hp pc target o kind, ?_, map_frame_resolve ..⟩
  rw [resolve_of_some o pc target kind hp]
  exact (hw.trainedBase ctx o).2.trans hw.base_config.symm

/-- Two wrong predictions. The base table provided the first one, and its counter moves. A tagged
table provided the second one: its entry is trained, and the entry in the table with the longer
history is given to the branch. -/
theorem footprint_resolve_small : ∃ p, build .small = .ok p ∧
    (let q := p.run [.predict 6, .advance 5 .taken, .clearUseful]
    (q.resolve 6 0 .taken .directBranch).base.counters[1]?
      = (q.base.counters[1]?.map (·.update .taken))) ∧
    let q := p.run [.predict 0, .resolve 0 0 .taken .directBranch, .predict 0,
      .resolve 0 0 .notTaken .directBranch, .predict 0]
    let r := q.resolve 0 0 .notTaken .directBranch
    r.base = q.base ∧
    (∃ e, entryIn q.tables 0 0 = some e ∧ e.tag = some 0 ∧ entryIn r.tables 0 0 = some
      { e with counter := e.counter.update .notTaken, useful := e.useful.decrement }) ∧
    ∃ e, entryIn q.tables 1 2 = some e ∧ e.tag ≠ some 6 ∧ entryIn r.tables 1 2
      = some ⟨e.counter.setWeak .notTaken, e.useful.set 0, some 6⟩ := by
  obtain ⟨p, hb, h⟩ := footprint_resolve (c := .small) (by decide)
  obtain ⟨-, hp⟩ := build_eq_ok.1 hb
  refine ⟨p, hb, ?_⟩
  subst hp
  constructor
  · obtain ⟨-, hresolve⟩ := h [.predict 6, .advance 5 .taken, .clearUseful]
      ((ofConfig .small).lookup 6) rfl
    obtain ⟨⟨aged, made, hfoot⟩, -⟩ := hresolve 6 0 .taken .directBranch
    exact (hfoot.base (by decide)).2 1
  · intro q r
    let before := (ofConfig .small).run [.predict 0, .resolve 0 0 .taken .directBranch, .predict 0,
      .resolve 0 0 .notTaken .directBranch]
    obtain ⟨-, hresolve⟩ := h [.predict 0, .resolve 0 0 .taken .directBranch, .predict 0,
      .resolve 0 0 .notTaken .directBranch, .predict 0] (before.lookup 0) rfl
    obtain ⟨⟨aged, made, hfoot⟩, -⟩ := hresolve 0 0 .notTaken .directBranch
    have hslots : (before.lookup 0).slots = [⟨0, 0⟩, ⟨2, 6⟩] := by decide +kernel
    have hprovider : (before.lookup 0).provider = .tagged 0 := by decide +kernel
    have hpredicted : (before.lookup 0).providerOutcome = .taken ∧
        (before.lookup 0).alternateOutcome = .notTaken := by decide +kernel
    have hreset : q.resetsNext = false := by decide +kernel
    refine ⟨hfoot.base_kept (by rw [hprovider]; decide), ?_, ?_⟩
    · obtain ⟨s, e, hs, he, htag, -, hr⟩ := hfoot.provider 0 hprovider
      rw [hslots] at hs
      obtain rfl := Option.some.inj hs
      rw [hreset, hpredicted.1, hpredicted.2] at hr
      exact ⟨e, he, htag, hr⟩
    · -- an entry that is not replaced keeps its tag
      have hmade : made = some 1 := by
        by_contra hne
        obtain ⟨s, e, hs, -, htag, hr⟩ :=
          hfoot.longer 1 (by decide +kernel) (by rw [hprovider]; decide) hne
        rw [hslots] at hs
        obtain rfl := Option.some.inj hs
        have hnew : (entryIn r.tables 1 2).map Entry.tag = some (some 6) := by decide +kernel
        rw [hr, hreset] at hnew
        apply htag
        cases aged
        all_goals exact Option.some.inj hnew
      obtain ⟨-, -, s, e, hs, he, htag, hr⟩ := hfoot.allocated 1 hmade
      rw [hslots] at hs
      obtain rfl := Option.some.inj hs
      exact ⟨e, he, htag, hr⟩

end Predictor

end BranchPrediction
