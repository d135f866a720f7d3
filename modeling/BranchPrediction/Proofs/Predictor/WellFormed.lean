import BranchPrediction.Proofs.Config.Valid
import BranchPrediction.Proofs.Predictor.Step

/-!
# Well-formed states

A state has the shape that its configuration gives: tables keep their sizes, counters their widths,
folds their widths and spans, weights their range, and the pending prediction has a slot for each
tagged table. The predictor of a valid configuration starts well-formed (`wellFormed_ofConfig`),
each call keeps it so (`WellFormed.step`), and so does every run (`WellFormed.run`). To look a branch
up takes less, only the sizes of the tables: a state is `Shaped` whatever the tables hold.
-/

namespace BranchPrediction

structure Entry.Fits (c : TableConfig) (e : Entry) : Prop where
  counter : e.counter.max = 2 ^ c.counter.bits - 1
  useful : e.useful.max = 2 ^ c.usefulBits - 1

structure Folded.HasShape (f : Folded) (width span : Nat) : Prop where
  width : f.width = width
  span : f.span = span

structure BaseTable.WellFormed (t : BaseTable) : Prop where
  size : t.counters.size = t.config.size
  counters : ∀ k ∈ t.counters, k.max = 2 ^ t.config.counter.bits - 1

/-- A tagged table has the sizes that its configuration gives, whatever its entries hold. -/
structure TaggedTable.Shaped (t : TaggedTable) : Prop where
  size : t.entries.size = t.config.size
  indexFold : t.indexFold.HasShape t.config.size.log2 t.config.historyLength
  tagFold : t.tagFold.HasShape t.config.tagBits t.config.historyLength
  shortTagFold : t.shortTagFold.HasShape (t.config.tagBits - 1) t.config.historyLength

structure TaggedTable.WellFormed (t : TaggedTable) : Prop where
  size : t.entries.size = t.config.size
  entries : ∀ e ∈ t.entries, e.Fits t.config
  indexFold : t.indexFold.HasShape t.config.size.log2 t.config.historyLength
  tagFold : t.tagFold.HasShape t.config.tagBits t.config.historyLength
  shortTagFold : t.shortTagFold.HasShape (t.config.tagBits - 1) t.config.historyLength

def Weight.InRange (bits : Nat) (w : Int) : Prop := lowest bits ≤ w ∧ w ≤ highest bits

structure Perceptron.InRange (bits : Nat) (p : Perceptron) : Prop where
  bias : Weight.InRange bits p.bias
  weights : ∀ w ∈ p.weights, Weight.InRange bits w

structure Perceptron.Fits (c : OverlayConfig) (p : Perceptron) : Prop where
  length : p.weights.length = c.weights
  bias : Weight.InRange c.weightBits p.bias
  weights : ∀ w ∈ p.weights, Weight.InRange c.weightBits w

/-- An overlay has the sizes that its configuration gives, with any bytes as weights. -/
structure Overlay.Shaped (o : Overlay) : Prop where
  size : o.perceptrons.size = o.config.perceptrons
  perceptrons : ∀ p ∈ o.perceptrons, p.InRange 8
  histories : o.histories.size = o.config.localRegisters

structure Overlay.WellFormed (o : Overlay) : Prop where
  size : o.perceptrons.size = o.config.perceptrons
  perceptrons : ∀ p ∈ o.perceptrons, p.Fits o.config
  histories : o.histories.size = o.config.localRegisters

/-- A pending prediction has a slot for each tagged table, its provider is there, and its vote, if
there is an overlay, can be learned from. -/
structure Context.Fits (c : Config) (ctx : Context) : Prop where
  slots : ctx.slots.length = c.tables.length
  provider : ∀ i, ctx.provider = .tagged i → i < c.tables.length
  vote_isSome : ctx.vote.isSome = c.overlay.isSome
  vote : ∀ v ∈ ctx.vote, ∀ o ∈ c.overlay,
    v.perceptronIndex < o.perceptrons ∧ v.historyIndex < o.localRegisters
  outcome : ctx.vote = none → ctx.outcome = ctx.providerOutcome

/-- The tables of a predictor have the sizes that its configuration gives, whatever they hold. -/
structure Predictor.Shaped (p : Predictor) : Prop where
  base : p.base.counters.size = p.base.config.size
  base_config : p.base.config = p.config.base
  tables : ∀ t ∈ p.tables, t.Shaped
  tables_config : p.tables.map TaggedTable.config = p.config.tables
  overlay : ∀ o ∈ p.overlay, o.Shaped
  overlay_config : p.overlay.map Overlay.config = p.config.overlay

structure Predictor.WellFormed (p : Predictor) : Prop where
  valid : p.config.Valid
  base : p.base.WellFormed
  base_config : p.base.config = p.config.base
  tables : ∀ t ∈ p.tables, t.WellFormed
  tables_config : p.tables.map TaggedTable.config = p.config.tables
  overlay : ∀ o ∈ p.overlay, o.WellFormed
  overlay_config : p.overlay.map Overlay.config = p.config.overlay
  global : p.global.length = p.config.globalLength
  path : ∀ h ∈ p.path, h.register.length = h.config.length
  path_config : p.path.map PathHistory.config = p.config.path
  hits : p.tally.taggedHits.length = p.tables.length
  misses : p.tally.taggedMisses.length = p.tables.length
  pending : ∀ ctx ∈ p.pending, ctx.Fits p.config

theorem forall_mem_modify {α : Type} {P : α → Prop} {xs : Array α} (h : ∀ x ∈ xs, P x) (i : Nat)
    {f : α → α} (hf : ∀ x, P x → P (f x)) : ∀ x ∈ xs.modify i f, P x := by
  intro x hx
  obtain ⟨j, hj⟩ := Array.mem_iff_getElem?.1 hx
  rw [Array.getElem?_modify] at hj
  split at hj
  · obtain ⟨y, hy, rfl⟩ := Option.map_eq_some_iff.1 hj
    exact hf y (h y (Array.mem_of_getElem? hy))
  · exact h x (Array.mem_of_getElem? hj)

namespace Entry

variable {c : TableConfig} {e : Entry}

theorem fits_fresh (c : TableConfig) : (fresh c).Fits c := ⟨by simp [fresh], by simp [fresh]⟩

theorem Fits.clearUseful (h : e.Fits c) : e.clearUseful.Fits c := ⟨h.counter, h.useful⟩

theorem Fits.age (h : e.Fits c) : e.age.Fits c := ⟨h.counter, h.useful⟩

theorem Fits.allocate (h : e.Fits c) (tag : Nat) (o : Outcome) : (e.allocate tag o).Fits c :=
  ⟨h.counter, h.useful⟩

theorem Fits.train (h : e.Fits c) (predicted alternate o : Outcome) :
    (e.train predicted alternate o).Fits c := by
  refine ⟨h.counter, ?_⟩
  unfold Entry.train
  dsimp only
  split
  · exact h.useful
  · split <;> exact h.useful

theorem Fits.slotEffect (h : e.Fits c) (ctx : Context) (o : Outcome) (aged : Bool)
    (made : Option Nat) (i : Nat) (s : Slot) : (slotEffect ctx o aged made i s e).Fits c := by
  have htrained : (if ctx.provider = .tagged i then
      e.train ctx.providerOutcome ctx.alternateOutcome o else e).Fits c := by
    split
    · exact h.train ..
    · exact h
  unfold BranchPrediction.slotEffect
  dsimp only
  generalize (if ctx.provider = .tagged i then _ else e) = trained at htrained ⊢
  split <;> split
  · exact htrained.age.allocate ..
  · exact htrained.allocate ..
  · exact htrained.age
  · exact htrained

end Entry

/-! ## Tables -/

theorem and_sub_one_lt {size : Nat} (h : 0 < size) (k : Nat) : k &&& (size - 1) < size := by
  have hle : k &&& (size - 1) ≤ size - 1 := Nat.and_le_right
  omega

namespace BaseTable

theorem wellFormed_ofConfig (c : BaseConfig) : (ofConfig c).WellFormed := by
  refine ⟨by simp [ofConfig], fun k hk => ?_⟩
  obtain rfl := (Array.mem_replicate.1 hk).2
  exact Counter.max_ofConfig _

theorem getElem?_counters {t : BaseTable} (h : t.counters.size = t.config.size)
    (hv : t.config.Valid) (i : Nat) : t.counters[i &&& t.mask]? = some (t.counter i) := by
  have hlt : i &&& t.mask < t.counters.size :=
    h ▸ and_sub_one_lt (pos_of_isPowerOfTwo hv.size) i
  rw [counter, Array.getElem?_eq_getElem hlt, Option.getD_some]

theorem WellFormed.update {t : BaseTable} (h : t.WellFormed) (i : Nat) (o : Outcome) :
    (t.update i o).WellFormed :=
  ⟨by simpa [BaseTable.update, modify] using h.size,
    forall_mem_modify h.counters (i &&& t.mask) (f := (·.update o)) fun _ hk => hk⟩

end BaseTable

namespace TaggedTable

variable {t : TaggedTable}

theorem wellFormed_ofConfig (c : TableConfig) (usesPath : Bool) :
    (ofConfig c usesPath).WellFormed := by
  refine ⟨by simp [ofConfig], fun e he => ?_, ⟨rfl, rfl⟩, ⟨rfl, rfl⟩, ⟨rfl, rfl⟩⟩
  obtain rfl := (Array.mem_replicate.1 he).2
  exact Entry.fits_fresh c

theorem WellFormed.shaped (h : t.WellFormed) : t.Shaped :=
  ⟨h.size, h.indexFold, h.tagFold, h.shortTagFold⟩

theorem Shaped.getElem?_entries (h : t.Shaped) (hv : t.config.Valid) (k : Nat) :
    t.entries[k &&& t.mask]? = some (t.entry k) := by
  have hlt : k &&& t.mask < t.entries.size :=
    h.size ▸ and_sub_one_lt (pos_of_isPowerOfTwo hv.size) k
  rw [entry, Array.getElem?_eq_getElem hlt, Option.getD_some]

theorem tag_lt (t : TaggedTable) (pc : UInt64) : t.tag pc < 2 ^ t.config.tagBits := by
  unfold tag
  have hlt := Nat.mod_lt ((pc.toNat >>> 2) ^^^ (pc.toNat >>> (2 + t.config.tagBits))
    ^^^ t.tagFold.value ^^^ (t.shortTagFold.value <<< 1)) (Nat.two_pow_pos (min t.config.tagBits 16))
  exact Nat.lt_of_lt_of_le hlt (Nat.pow_le_pow_right (by decide) (Nat.min_le_left ..))

theorem WellFormed.modify (h : t.WellFormed) (k : Nat) {f : Entry → Entry}
    (hf : ∀ e, e.Fits t.config → (f e).Fits t.config) : (t.modify k f).WellFormed :=
  ⟨(t.size_entries_modify k f).trans h.size, forall_mem_modify h.entries _ hf, h.indexFold,
    h.tagFold, h.shortTagFold⟩

theorem WellFormed.clearUseful (h : t.WellFormed) : t.clearUseful.WellFormed := by
  refine ⟨by simpa [TaggedTable.clearUseful] using h.size, fun e he => ?_, h.indexFold, h.tagFold,
    h.shortTagFold⟩
  obtain ⟨e', he', rfl⟩ := Array.mem_map.1 he
  exact (h.entries e' he').clearUseful

theorem WellFormed.follow (h : t.WellFormed) (r : Register) : (t.follow r).WellFormed :=
  ⟨h.size, h.entries, ⟨h.indexFold.width, h.indexFold.span⟩, ⟨h.tagFold.width, h.tagFold.span⟩,
    ⟨h.shortTagFold.width, h.shortTagFold.span⟩⟩

end TaggedTable

theorem wellFormed_mapSlots {tables : List TaggedTable} (h : ∀ t ∈ tables, t.WellFormed)
    (slots : List Slot) {f : Nat → Slot → Entry → Entry}
    (hf : ∀ i s c e, Entry.Fits c e → (f i s e).Fits c) :
    ∀ t ∈ mapSlots slots f tables, t.WellFormed := by
  intro t ht
  obtain ⟨i, hi⟩ := List.mem_iff_getElem?.1 ht
  rw [getElem?_mapSlots] at hi
  obtain ⟨u, hu, rfl⟩ := Option.map_eq_some_iff.1 hi
  have hw := h u (List.mem_of_getElem? hu)
  cases slots[i]? with
  | some s => exact hw.modify _ (hf i s _)
  | none => exact hw

/-- Well-formed tables of valid configurations. -/
def SoundTables (tables : List TaggedTable) : Prop :=
  ∀ t ∈ tables, t.WellFormed ∧ t.config.Valid

theorem SoundTables.mapSlots {tables : List TaggedTable} (h : SoundTables tables)
    (slots : List Slot) {f : Nat → Slot → Entry → Entry}
    (hf : ∀ i s c e, Entry.Fits c e → (f i s e).Fits c) : SoundTables (mapSlots slots f tables) := by
  intro t ht
  refine ⟨wellFormed_mapSlots (fun u hu => (h u hu).1) slots hf t ht, ?_⟩
  have hconfig : t.config ∈ tables.map TaggedTable.config :=
    map_mapSlots slots f tables TaggedTable.config (fun _ _ _ => rfl) ▸ List.mem_map_of_mem ht
  obtain ⟨u, hu, hc⟩ := List.mem_map.1 hconfig
  exact hc ▸ (h u hu).2

theorem SoundTables.shaped {tables : List TaggedTable} (h : SoundTables tables) :
    ∀ t ∈ tables, t.Shaped ∧ t.config.Valid :=
  fun t ht => ⟨(h t ht).1.shaped, (h t ht).2⟩

theorem SoundTables.drop {tables : List TaggedTable} (h : SoundTables tables) (n : Nat) :
    SoundTables (tables.drop n) :=
  fun t ht => h t (List.mem_of_mem_drop ht)

/-! ## The overlay -/

theorem Weight.inRange_add (bits : Nat) (w d : Int) : InRange bits (add bits w d) :=
  ⟨lowest_le_add .., add_le_highest ..⟩

theorem Weight.InRange.mono {bits bits' : Nat} (hle : bits ≤ bits') {w : Int}
    (h : InRange bits w) : InRange bits' w := by
  have hpow : 2 ^ (bits - 1) ≤ 2 ^ (bits' - 1) :=
    Nat.pow_le_pow_right (by decide) (Nat.sub_le_sub_right hle 1)
  obtain ⟨hlow, hhigh⟩ := h
  simp only [InRange, lowest, highest] at hlow hhigh ⊢
  omega

theorem Weight.inRange_zero (bits : Nat) : InRange bits 0 := by
  have := Nat.two_pow_pos (bits - 1)
  simp only [InRange, lowest, highest]
  omega

namespace Perceptron

variable {c : OverlayConfig}

theorem Fits.inRange {p : Perceptron} (h : p.Fits c) : p.InRange c.weightBits :=
  ⟨h.bias, h.weights⟩

theorem InRange.mono {p : Perceptron} {bits bits' : Nat} (hle : bits ≤ bits')
    (h : p.InRange bits) : p.InRange bits' :=
  ⟨h.bias.mono hle, fun w hw => (h.weights w hw).mono hle⟩

theorem fits_zero (c : OverlayConfig) : (zero c.weights).Fits c := by
  refine ⟨by simp [zero], Weight.inRange_zero _, fun w hw => ?_⟩
  obtain rfl := List.eq_of_mem_replicate hw
  exact Weight.inRange_zero _

theorem inRange_trainWeights {bits : Nat} (o : Outcome) {ws : List Int}
    (h : ∀ w ∈ ws, Weight.InRange bits w) (input : List Bool) :
    ∀ w ∈ trainWeights bits o input ws, Weight.InRange bits w := by
  induction ws generalizing input with
  | nil => cases input <;> simp [trainWeights]
  | cons w ws ih =>
    rw [List.forall_mem_cons] at h
    cases input with
    | nil => exact List.forall_mem_cons.2 h
    | cons b input =>
      exact List.forall_mem_cons.2 ⟨Weight.inRange_add .., ih h.2 input⟩

theorem Fits.train {p : Perceptron} (h : p.Fits c) (input : List Bool) (o : Outcome) :
    (p.train input o c.weightBits).Fits c :=
  ⟨by simpa [Perceptron.train] using h.length, Weight.inRange_add ..,
    inRange_trainWeights o h.weights input⟩

end Perceptron

namespace Overlay

theorem wellFormed_ofConfig (c : OverlayConfig) : (ofConfig c).WellFormed := by
  refine ⟨by simp [ofConfig], fun p hp => ?_, by simp [ofConfig]⟩
  obtain rfl := (Array.mem_replicate.1 hp).2
  exact Perceptron.fits_zero c

theorem vote_lt (o : Overlay) (hv : o.config.Valid) (pc : UInt64) :
    (o.vote pc).perceptronIndex < o.config.perceptrons ∧
      (o.vote pc).historyIndex < o.config.localRegisters :=
  ⟨Nat.mod_lt _ hv.perceptrons, Nat.mod_lt _ hv.localRegisters⟩

theorem WellFormed.shaped {o : Overlay} (h : o.WellFormed) (hv : o.config.Valid) : o.Shaped :=
  ⟨h.size, fun p hp => (h.perceptrons p hp).inRange.mono hv.weight.2, h.histories⟩

theorem WellFormed.train {o : Overlay} (h : o.WellFormed) (v : Vote) (outcome : Outcome) :
    (o.train v outcome).WellFormed :=
  ⟨by simpa [Overlay.train] using h.size,
    forall_mem_modify h.perceptrons _ fun p hp => hp.train _ _,
    by simpa [Overlay.train] using h.histories⟩

end Overlay

/-! ## The tally -/

namespace Tally

variable (t : Tally) (ctx : Context) (o : Outcome) (a : Allocation) (r : Bool)

theorem lengths_resolved : let u := Predictor.resolvedTally t ctx o a r
    u.taggedHits.length = t.taggedHits.length ∧ u.taggedMisses.length = t.taggedMisses.length := by
  have hover : ∀ b c, (t.countOverride b c).taggedHits = t.taggedHits ∧
      (t.countOverride b c).taggedMisses = t.taggedMisses := by
    intro b c; cases b <;> exact ⟨rfl, rfl⟩
  have hprov : ∀ (t : Tally) p b, (t.countProvider p b).taggedHits.length = t.taggedHits.length ∧
      (t.countProvider p b).taggedMisses.length = t.taggedMisses.length := by
    intro t p b; cases p <;> cases b <;> simp [countProvider]
  have halloc : ∀ t : Tally, (t.countAllocation a).taggedHits = t.taggedHits ∧
      (t.countAllocation a).taggedMisses = t.taggedMisses := by
    intro t; cases a <;> exact ⟨rfl, rfl⟩
  have hreset : ∀ t : Tally, (t.countReset r).taggedHits = t.taggedHits ∧
      (t.countReset r).taggedMisses = t.taggedMisses := by
    intro t; cases r <;> exact ⟨rfl, rfl⟩
  simp [Predictor.resolvedTally, tick, hover, hprov, halloc, hreset]

end Tally

/-! ## The predictor -/

namespace Predictor

theorem wellFormed_ofConfig {c : Config} (h : c.Valid) : (ofConfig c).WellFormed where
  valid := h
  base := BaseTable.wellFormed_ofConfig _
  base_config := rfl
  tables t ht := by
    obtain ⟨i, hi, rfl⟩ := List.mem_mapIdx.1 ht
    exact TaggedTable.wellFormed_ofConfig ..
  tables_config := by
    refine List.ext_getElem? fun i => ?_
    simp [ofConfig, TaggedTable.ofConfig, List.getElem?_mapIdx, Function.comp_def]
  overlay o ho := by
    obtain ⟨oc, -, rfl⟩ := Option.map_eq_some_iff.1 ho
    exact Overlay.wellFormed_ofConfig oc
  overlay_config := by cases hc : c.overlay <;> simp [ofConfig, hc, Overlay.ofConfig]
  global := rfl
  path p hp := by
    obtain ⟨pc, -, rfl⟩ := Option.map_eq_some_iff.1 hp
    rfl
  path_config := by cases hc : c.path <;> simp [ofConfig, hc, PathHistory.ofConfig]
  hits := by simp [ofConfig, Tally.zero]
  misses := by simp [ofConfig, Tally.zero]
  pending ctx hctx := by cases hctx

variable {p : Predictor}

theorem lt_of_providerAt_eq {tables : List TaggedTable} {slots : List Slot} {k i : Nat}
    (h : providerAt (hits tables slots) k = .tagged i) : i < tables.length := by
  unfold providerAt at h
  split at h
  · next j hj =>
    cases h
    have hmem := List.mem_of_getElem? hj
    simp only [hits, List.mem_reverse, List.mem_filter, List.mem_range] at hmem
    exact hmem.1
  · cases h

theorem WellFormed.tables_length (h : p.WellFormed) : p.tables.length = p.config.tables.length := by
  rw [← h.tables_config, List.length_map]

theorem Shaped.config_mem (h : p.Shaped) {t : TaggedTable} (ht : t ∈ p.tables) :
    t.config ∈ p.config.tables :=
  h.tables_config ▸ List.mem_map_of_mem ht

theorem Shaped.tables_valid (h : p.Shaped) (hv : p.config.Valid) :
    ∀ t ∈ p.tables, t.Shaped ∧ t.config.Valid :=
  fun t ht => ⟨h.tables t ht, hv.tables _ (h.config_mem ht)⟩

theorem Shaped.overlay_valid (h : p.Shaped) (hv : p.config.Valid) :
    ∀ o ∈ p.overlay, o.Shaped ∧ o.config.Valid :=
  fun o ho => ⟨h.overlay o ho, hv.overlay _ (h.overlay_config ▸ Option.mem_map_of_mem _ ho)⟩

theorem WellFormed.shaped (h : p.WellFormed) : p.Shaped where
  base := h.base.size
  base_config := h.base_config
  tables t ht := (h.tables t ht).shaped
  tables_config := h.tables_config
  overlay o ho := (h.overlay o ho).shaped
    (h.valid.overlay _ (h.overlay_config ▸ Option.mem_map_of_mem _ ho))
  overlay_config := h.overlay_config

theorem WellFormed.soundTables (h : p.WellFormed) : SoundTables p.tables :=
  fun t ht => ⟨h.tables t ht, h.valid.tables _ (h.shaped.config_mem ht)⟩

theorem finalOutcome_some {o : Overlay} (ho : p.overlay = some o) (v : Vote)
    (providerOutcome : Outcome) : p.finalOutcome (some v) providerOutcome =
      if v.isConfident o.config.threshold then v.outcome else providerOutcome := by
  unfold finalOutcome
  rw [ho]

theorem finalOutcome_none (p : Predictor) (o : Outcome) : p.finalOutcome none o = o := by
  unfold finalOutcome
  split <;> simp_all

theorem WellFormed.lookup (h : p.WellFormed) (pc : UInt64) : (p.lookup pc).Fits p.config where
  slots := by simpa [Predictor.lookup, Predictor.slots] using h.tables_length
  provider i hi := h.tables_length ▸ lt_of_providerAt_eq hi
  vote_isSome := by
    rw [← h.overlay_config]
    simp [Predictor.lookup]
  vote v hv o ho := by
    obtain ⟨o', ho', rfl⟩ := Option.map_eq_some_iff.1 hv
    have hc : o'.config = o := by
      have := h.overlay_config
      rw [ho', ho] at this
      exact Option.some.inj this
    subst hc
    exact o'.vote_lt (h.valid.overlay _ ho) pc
  outcome hv := by
    simp only [Predictor.lookup] at hv ⊢
    rw [hv, finalOutcome_none]

theorem WellFormed.predict (h : p.WellFormed) (pc : UInt64) : (p.predict pc).WellFormed :=
  { h with
    pending := fun ctx hctx => by
      obtain rfl := Option.some.inj hctx
      exact h.lookup pc }

theorem WellFormed.advance (h : p.WellFormed) (pc : UInt64) (o : Outcome) :
    (p.advance pc o).WellFormed :=
  { h with
    tables := fun t ht => by
      obtain ⟨u, hu, rfl⟩ := List.mem_map.1 ht
      exact (h.tables u hu).follow _
    tables_config := by
      refine Eq.trans ?_ h.tables_config
      simp [Predictor.advance, Function.comp_def, TaggedTable.follow]
    global := h.global
    path := fun r hr => by
      obtain ⟨r', hr', rfl⟩ := Option.map_eq_some_iff.1 hr
      exact h.path r' hr'
    path_config := by
      refine Eq.trans ?_ h.path_config
      simp [Predictor.advance, Function.comp_def, PathHistory.push]
    hits := by simpa [Predictor.advance] using h.hits
    misses := by simpa [Predictor.advance] using h.misses }

theorem WellFormed.clearUseful (h : p.WellFormed) : p.clearUseful.WellFormed :=
  { h with
    tables := fun t ht => by
      obtain ⟨u, hu, rfl⟩ := List.mem_map.1 ht
      exact (h.tables u hu).clearUseful
    tables_config := by
      refine Eq.trans ?_ h.tables_config
      simp [Predictor.clearUseful, Function.comp_def, TaggedTable.clearUseful]
    hits := by simpa [Predictor.clearUseful] using h.hits
    misses := by simpa [Predictor.clearUseful] using h.misses }

theorem WellFormed.allocated_tables (h : p.WellFormed) (ctx : Context) (o : Outcome) :
    (∀ t ∈ (p.allocated ctx o).1, t.WellFormed) ∧
      (p.allocated ctx o).1.map TaggedTable.config = p.config.tables ∧
      (p.allocated ctx o).1.length = p.tables.length := by
  obtain ⟨aged, ha, -⟩ := p.allocated_cases ctx o
  rw [ha, map_mapSlots _ _ _ _ fun _ _ _ => rfl, length_mapSlots]
  exact ⟨wellFormed_mapSlots h.tables _ fun i s c e he => he.slotEffect .., h.tables_config, rfl⟩

theorem WellFormed.trainedBase (h : p.WellFormed) (ctx : Context) (o : Outcome) :
    (p.trainedBase ctx o).WellFormed ∧ (p.trainedBase ctx o).config = p.config.base := by
  unfold Predictor.trainedBase
  split
  · exact ⟨h.base.update .., h.base_config⟩
  · exact ⟨h.base, h.base_config⟩

theorem WellFormed.trainedOverlay (h : p.WellFormed) (ctx : Context) (o : Outcome) :
    (∀ v ∈ p.trainedOverlay ctx o, v.WellFormed) ∧
      (p.trainedOverlay ctx o).map Overlay.config = p.config.overlay := by
  unfold Predictor.trainedOverlay
  split
  · next v w hv hw =>
    refine ⟨fun u hu => ?_, ?_⟩
    · obtain rfl := Option.some.inj hu
      exact (h.overlay v hv).train ..
    · rw [← h.overlay_config, hv]
      rfl
  · exact ⟨h.overlay, h.overlay_config⟩

theorem WellFormed.resolve (h : p.WellFormed) (pc target : UInt64) (o : Outcome) (kind : Kind) :
    (p.resolve pc target o kind).WellFormed := by
  have ha := h.advance pc o
  cases hp : p.pending with
  | none =>
    rw [resolve_of_none o pc target kind hp]
    exact { ha with hits := ha.hits, misses := ha.misses }
  | some ctx =>
    rw [resolve_of_some o pc target kind hp]
    obtain ⟨hb, hbc⟩ := h.trainedBase ctx o
    obtain ⟨hv, hvc⟩ := h.trainedOverlay ctx o
    obtain ⟨ht, htc, hlen⟩ := ha.allocated_tables ctx o
    obtain ⟨hh, hm⟩ := Tally.lengths_resolved p.tally ctx o
      ((p.advance pc o).allocated ctx o).2 p.resetsNext
    have hlen' : ((p.advance pc o).allocated ctx o).1.length = p.tables.length :=
      hlen.trans (by simp [Predictor.advance])
    refine { ha with
      base := hb, base_config := hbc, overlay := hv, overlay_config := hvc
      tables := ?_, tables_config := ?_, hits := ?_, misses := ?_, pending := by simp }
    all_goals dsimp only
    · intro t ht'
      split at ht'
      · obtain ⟨u, hu, rfl⟩ := List.mem_map.1 ht'
        exact (ht u hu).clearUseful
      · exact ht t ht'
    · split
      · rw [List.map_map]
        exact htc
      · exact htc
    · rw [hh, h.hits]
      split <;> simp [hlen']
    · rw [hm, h.misses]
      split <;> simp [hlen']

theorem WellFormed.step (h : p.WellFormed) (call : Call) : (p.step call).WellFormed := by
  cases call with
  | predict pc => exact h.predict pc
  | resolve pc target o kind => exact h.resolve pc target o kind
  | advance pc o => exact h.advance pc o
  | clearUseful => exact h.clearUseful

/-! ## Runs -/

/-- What holds at the start and is kept by each call holds after every run. -/
theorem run_induction {P : Predictor → Prop} {p : Predictor} (start : P p)
    (step : ∀ q call, P q → P (q.step call)) (calls : List Call) : P (p.run calls) := by
  induction calls generalizing p with
  | nil => exact start
  | cons call calls ih => exact ih (step p call start)

theorem WellFormed.run (h : p.WellFormed) (calls : List Call) : (p.run calls).WellFormed :=
  run_induction h (fun _ call hq => hq.step call) calls

theorem config_step (p : Predictor) (call : Call) : (p.step call).config = p.config := by
  cases call with
  | resolve pc target o kind =>
    rw [step_resolve]
    cases hp : p.pending with
    | none => rw [resolve_of_none o pc target kind hp]; rfl
    | some ctx => rw [resolve_of_some o pc target kind hp]; rfl
  | _ => rfl

@[simp] theorem config_run (p : Predictor) (calls : List Call) :
    (p.run calls).config = p.config :=
  run_induction (P := fun q => q.config = p.config) rfl
    (fun q call hq => (config_step q call).trans hq) calls

section
variable {c : Config}

theorem base_config_run (hc : c.Valid) (calls : List Call) :
    ((ofConfig c).run calls).base.config = c.base :=
  ((wellFormed_ofConfig hc).run calls).base_config.trans (congrArg Config.base (config_run ..))

theorem tables_config_run (hc : c.Valid) (calls : List Call) :
    ((ofConfig c).run calls).tables.map TaggedTable.config = c.tables :=
  ((wellFormed_ofConfig hc).run calls).tables_config.trans
    (congrArg Config.tables (config_run ..))

theorem overlay_config_run (hc : c.Valid) (calls : List Call) :
    ((ofConfig c).run calls).overlay.map Overlay.config = c.overlay :=
  ((wellFormed_ofConfig hc).run calls).overlay_config.trans
    (congrArg Config.overlay (config_run ..))

end

/-- A predictor is built exactly from the valid configurations. -/
theorem build_eq_ok {c : Config} {p : Predictor} :
    build c = .ok p ↔ c.Valid ∧ ofConfig c = p := by
  unfold build
  rw [← Config.validate_eq_ok]
  cases c.validate <;> simp [bind, Except.bind]

end Predictor

end BranchPrediction
