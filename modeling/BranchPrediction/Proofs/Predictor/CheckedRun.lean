import BranchPrediction.Proofs.Predictor.CheckedParts

/-!
# Checked runs

The predictor of a valid configuration that fits is built, and no call on it fails, in any order:
each checked call gives what the unchecked call gives.
-/

namespace BranchPrediction

theorem Config.fits_eq_true {c : Config} : c.fits = true ↔ c.base.fits = true ∧
    (∀ t ∈ c.tables, t.fits = true) ∧ (∀ o ∈ c.overlay, o.fits = true) ∧
      fitsHistory c.globalLength = true ∧ ∀ h ∈ c.path, h.fits = true := by
  unfold Config.fits
  simp only [Bool.and_eq_true, List.all_eq_true, Option.all_eq_true, and_assoc]
  rfl

namespace Predictor

theorem entries?_eq_some {tables : List TaggedTable}
    (h : ∀ t ∈ tables, t.Shaped ∧ t.config.Valid) {slots : List Slot}
    (hs : tables.length ≤ slots.length) : entries? tables slots
      = some ((tables.zip slots).map fun (t, s) => t.entry s.index) := by
  unfold entries?
  rw [if_pos hs]
  apply mapM_eq_some
  rintro ⟨t, s⟩ hts
  obtain ⟨hshape, hv⟩ := h t (List.of_mem_zip hts).1
  exact hshape.entry?_eq_some hv s.index

theorem claim?_eq_some {tables : List TaggedTable} (h : SoundTables tables) {slots : List Slot}
    (hs : tables.length ≤ slots.length) (choice : Nat) {among : List Nat}
    (ha : ∀ i ∈ among, i < tables.length) : claim? tables slots choice among = some () := by
  unfold claim?
  by_cases hpos : 0 < among.length
  · have hlt := Nat.mod_lt choice hpos
    have hi := ha _ (List.getElem_mem hlt)
    have ht := h _ (List.getElem_mem hi)
    have hj : among[choice % among.length] < slots.length := Nat.lt_of_lt_of_le hi hs
    rw [if_pos hpos, List.getElem?_eq_getElem hlt]
    simp only [Option.bind_eq_bind, Option.bind_some, List.getElem?_eq_getElem hi,
      List.getElem?_eq_getElem hj, ht.1.shaped.entry?_eq_some ht.2]
  · rw [if_neg hpos]

theorem allocate?_eq_some {tables : List TaggedTable} (h : SoundTables tables) {slots : List Slot}
    (hs : tables.length ≤ slots.length) (start choice : Nat) :
    allocate? tables slots start choice = some () := by
  have hcand : ∀ (ts : List TaggedTable), ∀ i ∈ candidates ts slots start, i < ts.length :=
    fun ts i hi => (mem_candidates.1 hi).1
  have hdrop : ∀ {ts : List TaggedTable}, ts.length ≤ slots.length →
      (ts.drop start).length ≤ (slots.drop start).length := by
    intro ts hts
    rw [List.length_drop, List.length_drop]
    omega
  have hsmall : ∀ e ∈ ((tables.drop start).zip (slots.drop start)).map
      (fun (t, s) => t.entry s.index), e.Small := by
    rw [List.forall_mem_map]
    rintro ⟨t, s⟩ hts
    obtain ⟨hw, hv⟩ := h.drop start t (List.of_mem_zip hts).1
    exact hw.small_entry hv s.index
  unfold allocate?
  rw [entries?_eq_some (h.drop start).shaped (hdrop hs), Option.bind_eq_bind, Option.bind_some]
  split
  · have haged : SoundTables (ageFrom tables slots start) := by
      rw [ageFrom_eq_mapSlots]
      refine h.mapSlots slots fun i s c e he => ?_
      split
      · exact he.age
      · exact he
    have hlen : (ageFrom tables slots start).length ≤ slots.length := by
      rw [ageFrom_eq_mapSlots, length_mapSlots]
      exact hs
    rw [mapM_eq_some fun e he => (hsmall e he).age?_eq_some]
    dsimp only [Option.bind_eq_bind, Option.bind_some]
    rw [entries?_eq_some (haged.drop start).shaped (hdrop hlen)]
    exact claim?_eq_some haged hlen choice (hcand _)
  · exact claim?_eq_some h hs choice (hcand _)

theorem ofConfig?_eq_some {c : Config} (h : c.Valid) (hf : c.fits = true) :
    ofConfig? c = some (ofConfig c) := by
  obtain ⟨hbase, htables, hoverlay, hglobal, hpath⟩ := Config.fits_eq_true.1 hf
  have hmap : (c.tables.mapIdx fun i t => (t, c.path.isSome && decide (0 < i))).map
      (fun e => TaggedTable.ofConfig e.1 e.2) = (ofConfig c).tables :=
    List.ext_getElem? fun i => by simp [ofConfig, Function.comp_def]
  unfold ofConfig?
  rw [BaseTable.ofConfig?_eq_some h.base hbase]
  rw [mapM_eq_some (g := fun e => TaggedTable.ofConfig e.1 e.2), hmap]
  · rw [mapM_option_eq_some fun o ho => Overlay.ofConfig?_eq_some (hoverlay o ho),
      mapM_option_eq_some fun r hr => PathHistory.ofConfig?_eq_some (hpath r hr), Register.zero?,
      if_pos hglobal]
    rfl
  · intro e he
    obtain ⟨i, hi, rfl⟩ := List.mem_mapIdx.1 he
    have ht := List.getElem_mem hi
    exact TaggedTable.ofConfig?_eq_some (h.tables _ ht) (htables _ ht) (h.historyLength_pos ht) _

/-! ## Calls -/

variable {p : Predictor}

theorem Shaped.slots?_eq_some (h : p.Shaped) (hv : p.config.Valid) (hf : p.config.fits = true)
    (pc : UInt64) : p.slots? pc = some (p.slots pc) := by
  obtain ⟨-, hfits, -⟩ := Config.fits_eq_true.1 hf
  refine mapM_eq_some fun t ht => ?_
  obtain ⟨hshape, hvalid⟩ := h.tables_valid hv t ht
  have hlog := log2_lt_of_fitsTable (hfits _ (h.config_mem ht)) hvalid.size (by decide)
  rw [hshape.index?_eq_some hvalid.size hvalid.log2_size_pos (Nat.lt_succ_of_lt hlog),
    hshape.tag?_eq_some hvalid.two_le_tagBits hvalid.tagBits_le]
  rfl

theorem Shaped.finalOutcome?_eq_some (h : p.Shaped) (hv : p.config.Valid) (pc : UInt64)
    (o : Outcome) : p.finalOutcome? (p.overlay.map (·.vote pc)) o
      = some (p.finalOutcome (p.overlay.map (·.vote pc)) o) := by
  unfold finalOutcome? finalOutcome
  cases ho : p.overlay with
  | none => rfl
  | some v =>
    obtain ⟨hshape, hvalid⟩ := h.overlay_valid hv v ho
    have hsmall := (hshape.vote?_eq_some hvalid pc).2
    simp only [Option.map_some, Vote.isConfident?_eq_some hsmall]
    rfl

theorem Shaped.lookup?_eq_some (h : p.Shaped) (hv : p.config.Valid) (hf : p.config.fits = true)
    (pc : UInt64) : p.lookup? pc = some (p.lookup pc) := by
  have hbase : p.base.config.Valid := h.base_config ▸ hv.base
  have hlen : p.tables.length ≤ (p.slots pc).length := by simp [slots]
  have hentries := entries?_eq_some (h.tables_valid hv) hlen
  have hcounter := BaseTable.counter?_eq_some h.base hbase (p.base.index pc)
  have hvote : p.overlay.mapM (·.vote? pc) = some (p.overlay.map (·.vote pc)) := by
    refine mapM_option_eq_some fun o ho => ?_
    obtain ⟨hshape, hvalid⟩ := h.overlay_valid hv o ho
    exact (hshape.vote?_eq_some hvalid pc).1
  have hindex := BaseTable.index?_eq_some hbase
    (h.base_config ▸ (Config.fits_eq_true.1 hf).1) pc
  have hfinal := h.finalOutcome?_eq_some hv pc (p.lookup pc).providerOutcome
  unfold lookup?
  rw [h.slots?_eq_some hv hf]
  simp only [Option.bind_eq_bind, Option.bind_some, hentries, hindex, hcounter, hvote, hfinal]
  rfl

theorem Shaped.predict?_eq_some (h : p.Shaped) (hv : p.config.Valid) (hf : p.config.fits = true)
    (pc : UInt64) : p.predict? pc = some (p.predict pc) := by
  unfold predict?
  rw [h.lookup?_eq_some hv hf]
  rfl

theorem WellFormed.push?_eq_some (h : p.WellFormed) {r : PathHistory} (hr : r ∈ p.path)
    (pc : UInt64) : r.push? pc = some (r.push pc) := by
  have hv := h.valid.path _ (h.path_config ▸ Option.mem_map_of_mem _ hr)
  have hbits := hv.bits_le_word
  unfold PathHistory.push? Register.pushBits?
  rw [if_pos (show r.config.alignBits < wordBits from hv.align), if_pos (by omega)]
  rfl

theorem WellFormed.advance?_eq_some (h : p.WellFormed) (pc : UInt64) (o : Outcome) :
    p.advance? pc o = some (p.advance pc o) := by
  have hfollow : p.tables.mapM (·.follow? (p.global.push o.toBool))
      = some (p.tables.map (·.follow (p.global.push o.toBool))) := by
    refine mapM_eq_some fun t ht => ?_
    obtain ⟨hw, hv⟩ := h.soundTables t ht
    refine hw.follow?_eq_some hv ?_
    rw [Register.length_push, h.global]
    exact Config.historyLength_lt (h.shaped.config_mem ht)
  unfold advance?
  dsimp only
  rw [hfollow, mapM_option_eq_some fun r hr => h.push?_eq_some hr pc]
  rfl

section
variable {ctx : Context} (h : p.WellFormed) (hc : ctx.Fits p.config) (o : Outcome)
include h hc

theorem WellFormed.trainOverlay?_eq_some : p.trainOverlay? ctx o = some () := by
  unfold trainOverlay?
  split
  · next v w hv hw =>
    have hconfig : v.config ∈ p.config.overlay := h.overlay_config ▸ Option.mem_map_of_mem _ hv
    obtain ⟨hp, hr⟩ := hc.vote w hw _ hconfig
    have hvalid := (h.shaped.overlay_valid h.valid v hv).2
    obtain ⟨t, ht⟩ := (h.overlay v hv).trained?_isSome hvalid hp hr o
    rw [ht]
    rfl
  · rfl

theorem WellFormed.trainProvider?_eq_some : p.trainProvider? ctx o = some () := by
  unfold trainProvider?
  split
  · have hbase : p.base.config.Valid := h.base_config ▸ h.valid.base
    rw [BaseTable.counter?_eq_some h.base.size hbase, Option.bind_eq_bind, Option.bind_some,
      Counter.update?_eq_some (h.base.max_counter_le hbase _)]
    rfl
  · next i hi =>
    have hlt := hc.provider i hi
    have htables : i < p.tables.length := h.tables_length ▸ hlt
    have hslots : i < ctx.slots.length := hc.slots ▸ hlt
    obtain ⟨hw, hv⟩ := h.soundTables _ (List.getElem_mem htables)
    have hentry := hw.shaped.entry?_eq_some hv ctx.slots[i].index
    have hsmall := hw.small_entry hv ctx.slots[i].index
    rw [List.getElem?_eq_getElem htables, List.getElem?_eq_getElem hslots,
      List.getElem?_eq_getElem (h.hits ▸ htables), List.getElem?_eq_getElem (h.misses ▸ htables)]
    simp only [Option.bind_eq_bind, Option.bind_some, hentry, hsmall.train?_eq_some]

theorem WellFormed.train?_eq_some : p.train? ctx o = some (p.train ctx o) := by
  have htrained : SoundTables (p.trainedTables ctx o) := by
    rw [trainedTables_eq_mapSlots]
    exact h.soundTables.mapSlots _ fun i s c e he => he.slotEffect ..
  have hslots : (p.trainedTables ctx o).length ≤ ctx.slots.length := by
    rw [trainedTables_eq_mapSlots, length_mapSlots, h.tables_length, hc.slots]
  have hreset : p.config.usefulResetLog2 < wordBits := Nat.lt_succ_of_le h.valid.reset_le
  unfold train?
  rw [h.trainOverlay?_eq_some hc, h.trainProvider?_eq_some hc,
    allocate?_eq_some htrained hslots, if_pos hreset]
  split <;> rfl

end

theorem WellFormed.resolve?_eq_some (h : p.WellFormed) (pc target : UInt64) (o : Outcome)
    (kind : Kind) : p.resolve? pc target o kind = some (p.resolve pc target o kind) := by
  have ha : { p.advance pc o with pending := none }.WellFormed :=
    { h.advance pc o with pending := by simp }
  unfold resolve? Predictor.resolve
  rw [h.advance?_eq_some]
  cases hp : p.pending with
  | none => rfl
  | some ctx =>
    have htrain := ha.train?_eq_some (h.pending ctx hp) o
    simp only [Option.bind_eq_bind, Option.bind_some, htrain]

theorem WellFormed.step?_eq_some (h : p.WellFormed) (hf : p.config.fits = true) (call : Call) :
    p.step? call = some (p.step call) := by
  cases call with
  | predict pc => exact h.shaped.predict?_eq_some h.valid hf pc
  | resolve pc target o kind => exact h.resolve?_eq_some pc target o kind
  | advance pc o => exact h.advance?_eq_some pc o
  | clearUseful => rfl

/-! ## Runs -/

theorem WellFormed.run?_eq_some (h : p.WellFormed) (hf : p.config.fits = true)
    (calls : List Call) : p.run? calls = some (p.run calls) := by
  induction calls generalizing p with
  | nil => rfl
  | cons call calls ih =>
    unfold run?
    rw [List.foldlM_cons, h.step?_eq_some hf]
    exact ih (h.step call) ((config_step p call).symm ▸ hf)

/-- Nothing can go wrong with a valid configuration that fits: the predictor is built, and every
sequence of calls on it runs to its end. -/
theorem build_run_isSafe {c : Config} (hc : c.validate = .ok ()) (hf : c.fits = true) :
    ∃ p, build? c = some (.ok p) ∧ build c = .ok p ∧
      ∀ calls, p.run? calls = some (p.run calls) := by
  have hv := Config.validate_eq_ok.1 hc
  refine ⟨ofConfig c, ?_, build_eq_ok.2 ⟨hv, rfl⟩, (wellFormed_ofConfig hv).run?_eq_some hf⟩
  unfold build?
  rw [hc, ofConfig?_eq_some hv hf]
  rfl

theorem build_run_isSafe_small : ∃ p, build? .small = some (.ok p) ∧ build .small = .ok p ∧
    p.run? [.predict 6, .clearUseful, .resolve 7 0 .taken .directBranch, .resolve 6 0 .taken .ret]
      ≠ none := by
  obtain ⟨p, hb?, hb, hrun⟩ := build_run_isSafe (c := .small) (by decide) (by decide)
  exact ⟨p, hb?, hb, by simp [hrun]⟩

end Predictor

end BranchPrediction
