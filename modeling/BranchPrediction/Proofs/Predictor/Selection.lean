import Mathlib.Data.Set.Basic
import Mathlib.Order.Bounds.Defs
import BranchPrediction.Proofs.Predictor.CheckedRun
import BranchPrediction.Proofs.Predictor.Pending
import BranchPrediction.Proofs.Predictor.Recycling

/-!
# Which tables a prediction comes from

A tagged table knows a branch if the entry in the branch's slot holds the branch's tag. The greatest
of the tables that know a branch is the provider, and the greatest of the others is the alternate.
`Selected` says this of a prediction, and when the overlay has the last word; `predict_selects`
proves it for every state whose tables have the sizes that a valid configuration gives, whatever the
tables, the histories and the overlay hold.
-/

namespace BranchPrediction

/-- The greatest of the tables in a set, and the base table if there is none. -/
def Provider.IsGreatestOf (known : Set Nat) : Provider → Prop
  | .base => known = ∅
  | .tagged i => IsGreatest known i

def Context.known (ctx : Context) (tables : List TaggedTable) : Set Nat :=
  {i | ∃ s e, ctx.slots[i]? = some s ∧ entryIn tables i s.index = some e ∧ e.tag = some s.tag}

/-- The counter that a table has for the branch of a prediction predicts `o`. -/
def Context.Finds (ctx : Context) (p : Predictor) (o : Outcome) : Provider → Prop
  | .base => ∃ k, p.base.counters[ctx.baseIndex]? = some k ∧ k.predict = o
  | .tagged i => ∃ s e, ctx.slots[i]? = some s ∧ entryIn p.tables i s.index = some e ∧
      e.counter.predict = o

/-- What a prediction for the branch at `pc` is, in terms of the state that it is made from. -/
structure Predictor.Selected (p : Predictor) (pc : UInt64) (ctx : Context) : Prop where
  pc_eq : ctx.pc = pc
  slots_eq : ctx.slots = p.slots pc
  slot_lt : ∀ (i : Nat) (t : TaggedTable), p.tables[i]? = some t → ∃ s : Slot,
    ctx.slots[i]? = some s ∧ s.index < t.entries.size ∧ s.tag < 2 ^ t.config.tagBits
  baseIndex_eq : ctx.baseIndex = p.base.index pc
  baseIndex_lt : ctx.baseIndex < p.base.counters.size
  provider : ctx.provider.IsGreatestOf (ctx.known p.tables)
  providerOutcome : ctx.Finds p ctx.providerOutcome ctx.provider
  alternate : ctx.alternate.IsGreatestOf {i ∈ ctx.known p.tables | ctx.provider ≠ .tagged i}
  alternateOutcome : ctx.Finds p ctx.alternateOutcome ctx.alternate
  vote_eq : ctx.vote = p.overlay.map (·.vote pc)
  vote_lt : ∀ o v, p.overlay = some o → ctx.vote = some v →
    v.perceptronIndex < o.perceptrons.size ∧ v.historyIndex < o.histories.size
  confident : ∀ o v, p.overlay = some o → ctx.vote = some v →
    o.config.threshold < v.output.natAbs → ctx.outcome = if 0 ≤ v.output then .taken else .notTaken
  /-- also where there is no overlay -/
  unconfident : (∀ o v, p.overlay = some o → ctx.vote = some v →
    v.output.natAbs ≤ o.config.threshold) → ctx.outcome = ctx.providerOutcome

namespace Predictor

variable {p : Predictor}

section
variable {l : List Nat}

theorem providerAt_zero_isGreatestOf (h : l.Pairwise (· > ·)) :
    (providerAt l 0).IsGreatestOf {i | i ∈ l} := by
  cases l with
  | nil => exact Set.eq_empty_of_forall_notMem fun i => List.not_mem_nil
  | cons a rest =>
    refine ⟨List.mem_cons_self, fun j hj => ?_⟩
    rcases List.mem_cons.1 hj with rfl | hr
    · exact Nat.le_refl j
    · exact Nat.le_of_lt (List.rel_of_pairwise_cons h hr)

theorem providerAt_one_isGreatestOf (h : l.Pairwise (· > ·)) :
    (providerAt l 1).IsGreatestOf {i | i ∈ l ∧ providerAt l 0 ≠ .tagged i} := by
  cases l with
  | nil => exact Set.eq_empty_of_forall_notMem fun i hi => List.not_mem_nil hi.1
  | cons a rest =>
    have hrest : {i | i ∈ a :: rest ∧ providerAt (a :: rest) 0 ≠ .tagged i} = {i | i ∈ rest} := by
      ext i
      show i ∈ a :: rest ∧ Provider.tagged a ≠ .tagged i ↔ i ∈ rest
      constructor
      · rintro ⟨hi, hne⟩
        exact (List.mem_cons.1 hi).resolve_left fun heq => hne (congrArg _ heq.symm)
      · intro hi
        refine ⟨List.mem_cons_of_mem _ hi, fun heq => ?_⟩
        obtain rfl := Provider.tagged.inj heq
        exact Nat.lt_irrefl a (List.rel_of_pairwise_cons h hi)
    rw [hrest]
    exact providerAt_zero_isGreatestOf (List.pairwise_cons.1 h).2

end

theorem Shaped.known_lookup (h : p.Shaped) (hv : p.config.Valid) (pc : UInt64) :
    (p.lookup pc).known p.tables = {i | i ∈ hits p.tables (p.slots pc)} := by
  ext i
  show (∃ s e, (p.slots pc)[i]? = some s ∧ entryIn p.tables i s.index = some e ∧
    e.tag = some s.tag) ↔ i ∈ hits p.tables (p.slots pc)
  rw [mem_hits]
  cases ht : p.tables[i]? with
  | none =>
    have hi : ¬ i < p.tables.length := Nat.not_lt.2 (List.getElem?_eq_none_iff.1 ht)
    simp [entryIn, hi]
  | some t =>
    obtain ⟨s, hs, -, he⟩ := h.slot_of_table hv pc ht
    have hi : i < p.tables.length := (List.getElem?_eq_some_iff.1 ht).1
    have hentry := entryIn_eq_some.2 ⟨t, ht, he⟩
    rw [matchesAt_eq ht hs]
    simp [hs, hentry, hi, Entry.holds]

theorem Shaped.finds_predictionOf (h : p.Shaped) (hv : p.config.Valid) (pc : UInt64)
    {provider : Provider} (hp : ∀ i, provider = .tagged i → i < p.tables.length) :
    (p.lookup pc).Finds p (p.predictionOf (p.base.index pc) (p.slots pc) provider) provider := by
  cases provider with
  | base => exact ⟨_, h.counter_of_base hv pc, rfl⟩
  | tagged i =>
    have hi := hp i rfl
    have ht := List.getElem?_eq_getElem hi
    obtain ⟨s, hs, -, he⟩ := h.slot_of_table hv pc ht
    refine ⟨s, _, hs, entryIn_eq_some.2 ⟨_, ht, he⟩, ?_⟩
    show (p.tables[i].entry s.index).predict = _
    rw [predictionOf, entryAt?, ht, hs]

/-! ## Predictions -/

theorem Shaped.selected_lookup (h : p.Shaped) (hv : p.config.Valid) (pc : UInt64) :
    p.Selected pc (p.lookup pc) where
  pc_eq := rfl
  slots_eq := rfl
  slot_lt i t ht := by
    obtain ⟨s, hs, -, he⟩ := h.slot_of_table hv pc ht
    refine ⟨s, hs, (Array.getElem?_eq_some_iff.1 he).1, ?_⟩
    have htag : s.tag = t.tag pc := by
      simp only [Predictor.slots, List.getElem?_map, ht, Option.map_some, Option.some.injEq] at hs
      rw [← hs]
    rw [htag]
    exact t.tag_lt pc
  baseIndex_eq := rfl
  baseIndex_lt := (Array.getElem?_eq_some_iff.1 (h.counter_of_base hv pc)).1
  provider := by
    rw [h.known_lookup hv]
    exact providerAt_zero_isGreatestOf (hits_pairwise ..)
  providerOutcome := h.finds_predictionOf hv pc fun i hi => lt_of_providerAt_eq hi
  alternate := by
    rw [h.known_lookup hv]
    exact providerAt_one_isGreatestOf (hits_pairwise ..)
  alternateOutcome := h.finds_predictionOf hv pc fun i hi => lt_of_providerAt_eq hi
  vote_eq := rfl
  vote_lt o v ho hvote := by
    obtain ⟨hshape, hvalid⟩ := h.overlay_valid hv o ho
    simp only [lookup, ho, Option.map_some, Option.some.injEq] at hvote
    obtain rfl := hvote
    rw [hshape.size, hshape.histories]
    exact o.vote_lt hvalid pc
  confident o v ho hvote hc := by
    have hconfident : v.isConfident o.config.threshold = true := decide_eq_true hc
    show p.finalOutcome (p.lookup pc).vote _ = _
    rw [hvote, finalOutcome_some ho, if_pos hconfident, Vote.outcome, Outcome.ofBool]
    simp only [decide_eq_true_eq]
  unconfident hu := by
    show p.finalOutcome (p.lookup pc).vote _ = _
    cases ho : p.overlay with
    | none => rw [lookup, ho, Option.map_none, finalOutcome_none]
    | some o =>
      have hvote : (p.lookup pc).vote = some (o.vote pc) := by simp [lookup, ho]
      have hconfident : ¬ (o.vote pc).isConfident o.config.threshold = true := by
        simpa [Vote.isConfident] using hu o _ ho hvote
      rw [hvote, finalOutcome_some ho, if_neg hconfident]
      rfl

/-- A prediction is made from what the tables know, whatever they hold, and writes nothing but
itself. Where it is written over an earlier one, nothing of that one is left. -/
theorem predict_selects (hc : p.config.validate = .ok ()) (h : p.Shaped) (pc : UInt64) :
    ∃ ctx, p.predict pc = { p with pending := some ctx } ∧ p.Selected pc ctx ∧
      (∀ old, p.lookupInto old pc = ctx) ∧
      (p.config.fits = true → p.predict? pc = some (p.predict pc)) := by
  have hv := Config.validate_eq_ok.1 hc
  exact ⟨p.lookup pc, rfl, h.selected_lookup hv pc, fun old => p.lookupInto_eq old pc,
    fun hf => h.predict?_eq_some hv hf pc⟩

/-- Two tables know the branch, and a confident vote overrules the one that provides. -/
theorem predict_selects_small :
    let outcomes : List Outcome := [.taken, .notTaken, .taken, .taken, .notTaken, .taken]
    let p := (ofConfig .small).run
      (outcomes.flatMap fun o => [.predict 6, .resolve 6 0 o .directBranch])
    ∃ ctx, p.predict 6 = { p with pending := some ctx } ∧ p.Selected 6 ctx ∧
      ctx.provider = .tagged 1 ∧ ctx.alternate = .tagged 0 ∧ ctx.isOverride = true ∧
      p.predict? 6 = some (p.predict 6) := by
  intro outcomes p
  have hvalid : Config.small.validate = .ok () := by decide
  have hconfig : p.config = .small := config_run ..
  have hshaped : p.Shaped := ((wellFormed_ofConfig (Config.validate_eq_ok.1 hvalid)).run _).shaped
  obtain ⟨ctx, hctx, hselected, -, hsafe⟩ :=
    predict_selects (hconfig ▸ hvalid) hshaped 6
  obtain rfl : p.lookup 6 = ctx := Option.some.inj (congrArg Predictor.pending hctx)
  refine ⟨_, hctx, hselected, ?_, ?_, ?_, hsafe (hconfig ▸ by decide)⟩
  · decide +kernel
  · decide +kernel
  · decide +kernel

end Predictor

end BranchPrediction
