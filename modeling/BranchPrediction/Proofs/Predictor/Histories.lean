import Mathlib.Data.List.Induction
import BranchPrediction.Proofs.History.ResidueFold
import BranchPrediction.Proofs.Predictor.WellFormed

/-!
# What the histories hold

A run shifts addresses and outcomes into the histories of a predictor. `shiftedBy` is the list of
them, newest first, and `Remembers` says that the registers and the folds hold what the list says.
Each call keeps this (`Remembers.step`), so after any run the folds, which are never computed
again, are folds from scratch, and branches are looked up where `referenceSlot` says.
-/

namespace BranchPrediction

/-- The address and the outcome that a call shifts into the histories. -/
def Call.shifted? : Call → Option (UInt64 × Outcome)
  | .resolve pc _ outcome _ => some (pc, outcome)
  | .advance pc outcome => some (pc, outcome)
  | _ => none

def shiftedBy (calls : List Call) : List (UInt64 × Outcome) :=
  (calls.filterMap Call.shifted?).reverse

section
variable (log : List (UInt64 × Outcome))

def outcomeBit (k : Nat) : Bool :=
  log[k]?.any fun e => e.2.toBool

def addressAt (k : Nat) : UInt64 :=
  (log[k]?.map Prod.fst).getD 0

/-- Bit `j` of the addresses, of which each gives `bitsPerBranch` bits. -/
def pathBit (c : PathConfig) (j : Nat) : Bool :=
  ((addressAt log (j / c.bitsPerBranch)).toNat >>> c.alignBits).testBit (j % c.bitsPerBranch)

/-- The outcomes that a table spans, folded from scratch. -/
def outcomeFold (t : TableConfig) (width : Nat) : Nat :=
  residueFold (outcomeBit log) t.historyLength width

/-- The path history folded from scratch for table number `i`. It takes no part in the first table,
nor without a path history. -/
def pathFold (c : Config) (i width : Nat) : Nat :=
  match c.path with
  | some h => if 0 < i then residueFold (pathBit log h) h.length width else 0
  | none => 0

/-- Where a branch is looked up in table number `i`, with all folds from scratch. -/
def referenceSlot (c : Config) (pc : UInt64) (i : Nat) (t : TableConfig) : Slot where
  index :=
    (pc.toNat ^^^ (pc.toNat >>> t.size.log2) ^^^ outcomeFold log t t.size.log2
      ^^^ pathFold log c i t.size.log2) &&& (t.size - 1)
  tag :=
    ((pc.toNat >>> 2) ^^^ (pc.toNat >>> (2 + t.tagBits)) ^^^ outcomeFold log t t.tagBits
      ^^^ (outcomeFold log t (t.tagBits - 1) <<< 1)) &&& (2 ^ t.tagBits - 1)

end

theorem shiftedBy_concat (calls : List Call) (call : Call) :
    shiftedBy (calls ++ [call]) = call.shifted?.toList ++ shiftedBy calls := by
  unfold shiftedBy
  cases h : call.shifted? <;> simp [h]

section
variable (e : UInt64 × Outcome) (log : List (UInt64 × Outcome))

theorem outcomeBit_cons_succ (k : Nat) : outcomeBit (e :: log) (k + 1) = outcomeBit log k := rfl

/-- The newest address gives the first bits, and the bits of the others move up. -/
theorem pathBit_cons {c : PathConfig} (h : 0 < c.bitsPerBranch) (j : Nat) :
    pathBit (e :: log) c j = if j < c.bitsPerBranch then (e.1.toNat >>> c.alignBits).testBit j
      else pathBit log c (j - c.bitsPerBranch) := by
  unfold pathBit
  split
  · next hj =>
    rw [Nat.div_eq_of_lt hj, Nat.mod_eq_of_lt hj]
    rfl
  · next hj =>
    obtain ⟨k, rfl⟩ : ∃ k, j = k + c.bitsPerBranch := ⟨j - c.bitsPerBranch, by omega⟩
    rw [Nat.add_div_right _ h, Nat.add_mod_right, Nat.add_sub_cancel]
    rfl

end

/-! ## The invariant -/

structure TaggedTable.Remembers (t : TaggedTable) (log : List (UInt64 × Outcome)) : Prop where
  indexFold : t.indexFold.Reflects (outcomeBit log)
  tagFold : t.tagFold.Reflects (outcomeBit log)
  shortTagFold : t.shortTagFold.Reflects (outcomeBit log)

/-- The registers and the folds hold what the log says, and the path history comes into every
tagged table but the first. -/
structure Predictor.Remembers (p : Predictor) (log : List (UInt64 × Outcome)) : Prop where
  global : ∀ k < p.global.length, p.global.bit k = outcomeBit log k
  path : ∀ h ∈ p.path, ∀ j < h.register.length, h.register.bit j = pathBit log h.config j
  tables : ∀ t ∈ p.tables.map TaggedTable.frame, t.Remembers log
  usesPath : ∀ i t, (p.tables.map TaggedTable.frame)[i]? = some t →
    t.usesPath = (p.path.isSome && decide (0 < i))

/-- A fold of a given shape that holds the newest outcomes, folded from scratch. -/
def Folded.Holds (f : Folded) (log : List (UInt64 × Outcome)) (width span : Nat) : Prop :=
  f.HasShape width span ∧ ∀ j < width, f.bits.getLsbD j = residueBit (outcomeBit log) span width j

theorem Folded.Reflects.holds {f : Folded} {log : List (UInt64 × Outcome)} {width span : Nat}
    (hb : f.Reflects (outcomeBit log)) (h : f.HasShape width span) : f.Holds log width span := by
  obtain ⟨rfl, rfl⟩ := h
  exact ⟨⟨rfl, rfl⟩, hb⟩

theorem Folded.HasShape.value_eq {f : Folded} {width span : Nat} {bits : Nat → Bool}
    (h : f.HasShape width span) (hb : f.Reflects bits) (hw : 0 < width) :
    f.value = residueFold bits span width := by
  rw [hb.value_eq (h.width ▸ hw), h.width, h.span]

namespace Predictor

variable {p q : Predictor} {log : List (UInt64 × Outcome)}

theorem remembers_ofConfig (c : Config) : (ofConfig c).Remembers [] where
  global k _ := Register.bit_zero _ k
  path h hh j _ := by
    obtain ⟨c, -, rfl⟩ := Option.map_eq_some_iff.1 hh
    simp [PathHistory.ofConfig, pathBit, addressAt]
  tables t ht := by
    obtain ⟨u, hu, rfl⟩ := List.mem_map.1 ht
    obtain ⟨i, hi, rfl⟩ := List.mem_mapIdx.1 hu
    exact ⟨Folded.reflects_zero _ _, Folded.reflects_zero _ _, Folded.reflects_zero _ _⟩
  usesPath i t ht := by
    rw [List.getElem?_map, Option.map_eq_some_iff] at ht
    obtain ⟨u, hu, rfl⟩ := ht
    simp only [ofConfig, List.getElem?_mapIdx, Option.map_eq_some_iff] at hu
    obtain ⟨v, -, rfl⟩ := hu
    simp [TaggedTable.frame, TaggedTable.ofConfig, ofConfig]

theorem Remembers.congr (h : p.Remembers log) (hg : q.global = p.global) (hp : q.path = p.path)
    (ht : q.tables.map TaggedTable.frame = p.tables.map TaggedTable.frame) : q.Remembers log :=
  ⟨hg ▸ h.global, hp ▸ h.path, ht ▸ h.tables, by rw [ht, hp]; exact h.usesPath⟩

theorem Remembers.bit_push (h : p.Remembers log) (pc : UInt64) (o : Outcome) {k : Nat}
    (hk : k < p.global.length) :
    (p.global.push o.toBool).bit k = outcomeBit ((pc, o) :: log) k := by
  rw [Register.bit_push, decide_eq_true hk, Bool.true_and]
  cases k with
  | zero => rfl
  | succ k => exact h.global k (by omega)

theorem Remembers.advance (h : p.Remembers log) (hw : p.WellFormed) (pc : UInt64) (o : Outcome) :
    (p.advance pc o).Remembers ((pc, o) :: log) where
  global k hk := h.bit_push pc o hk
  path r hr j hj := by
    obtain ⟨s, hs, rfl⟩ := Option.map_eq_some_iff.1 hr
    have hc : s.config ∈ p.config.path := hw.path_config ▸ Option.mem_map_of_mem _ hs
    change j < s.register.length at hj
    simp only [PathHistory.push, Register.bit_pushBits, decide_eq_true hj, Bool.true_and]
    rw [pathBit_cons _ _ (hw.valid.path _ hc).bits]
    split
    · rfl
    · exact h.path s hs _ (by omega)
  tables t ht := by
    obtain ⟨u, hu, rfl⟩ := List.mem_map.1 ht
    obtain ⟨v, hv, rfl⟩ := List.mem_map.1 hu
    have hr := h.tables _ (List.mem_map_of_mem hv)
    have hshape := hw.tables v hv
    have hspan : v.config.historyLength < p.global.length := by
      rw [hw.global]
      exact Config.historyLength_lt (hw.shaped.config_mem hv)
    have hfold : ∀ {f : Folded} {w : Nat}, f.HasShape w v.config.historyLength →
        f.Reflects (outcomeBit log) →
        (f.update (p.global.push o.toBool)).Reflects (outcomeBit ((pc, o) :: log)) :=
      fun hf hb => hb.update (outcomeBit_cons_succ _ _) (h.bit_push pc o (by omega))
        (h.bit_push pc o (hf.span ▸ hspan))
    exact ⟨hfold hshape.indexFold hr.indexFold, hfold hshape.tagFold hr.tagFold,
      hfold hshape.shortTagFold hr.shortTagFold⟩
  usesPath i t ht := by
    have hpath : (p.advance pc o).path.isSome = p.path.isSome := by simp [Predictor.advance]
    rw [List.getElem?_map, Option.map_eq_some_iff] at ht
    obtain ⟨u, hu, rfl⟩ := ht
    rw [Predictor.advance, List.getElem?_map, Option.map_eq_some_iff] at hu
    obtain ⟨v, hv, rfl⟩ := hu
    rw [hpath]
    exact h.usesPath i v.frame (by rw [List.getElem?_map, hv]; rfl)

/-- Resolving moves the histories on, whether there is a prediction to learn from or not. -/
theorem Remembers.resolve (h : p.Remembers log) (hw : p.WellFormed) (pc target : UInt64)
    (o : Outcome) (kind : Kind) : (p.resolve pc target o kind).Remembers ((pc, o) :: log) := by
  refine (h.advance hw pc o).congr ?_ ?_ (map_frame_resolve ..)
  all_goals
    cases hp : p.pending with
    | none => rw [resolve_of_none o pc target kind hp]
    | some ctx => rw [resolve_of_some o pc target kind hp]

theorem Remembers.step (h : p.Remembers log) (hw : p.WellFormed) (call : Call) :
    (p.step call).Remembers (call.shifted?.toList ++ log) := by
  cases call with
  | predict pc => exact h.congr rfl rfl rfl
  | resolve pc target o kind => exact h.resolve hw pc target o kind
  | advance pc o => exact h.advance hw pc o
  | clearUseful => exact h.congr rfl rfl (map_frame_clearUseful _)

theorem remembers_run {c : Config} (hc : c.Valid) (calls : List Call) :
    ((ofConfig c).run calls).Remembers (shiftedBy calls) := by
  induction calls using List.reverseRecOn with
  | nil => exact remembers_ofConfig c
  | append_singleton calls call ih =>
    rw [run_concat, shiftedBy_concat]
    exact ih.step ((wellFormed_ofConfig hc).run calls) call

/-! ## Hashes -/

theorem Remembers.pathHash_eq (h : p.Remembers log) (hw : p.WellFormed) {i : Nat} {t : TaggedTable}
    (ht : p.tables[i]? = some t) (hb : 0 < t.indexBits) :
    t.pathHash (p.path.map PathHistory.register) = pathFold log p.config i t.indexBits := by
  have huses : t.usesPath = (p.path.isSome && decide (0 < i)) :=
    h.usesPath i t.frame (by rw [List.getElem?_map, ht]; rfl)
  unfold TaggedTable.pathHash pathFold
  rw [← hw.path_config, huses]
  cases hp : p.path with
  | none => rfl
  | some r =>
    simp only [Option.map_some, Option.isSome_some, Bool.true_and, decide_eq_true_eq]
    rw [Register.fold, Register.foldRange_eq _ _ _ hb, hw.path r hp]
    simp only [Nat.zero_add]
    rw [residueFold_congr _ fun k hk => h.path r hp k (by rwa [hw.path r hp])]

theorem Remembers.slots_eq (h : p.Remembers log) (hw : p.WellFormed) (pc : UInt64) :
    p.slots pc = p.config.tables.mapIdx (referenceSlot log p.config pc) := by
  rw [← hw.tables_config]
  refine List.ext_getElem? fun i => ?_
  rw [slots, List.getElem?_map, List.getElem?_mapIdx, List.getElem?_map, Option.map_map]
  cases hi : p.tables[i]? with
  | none => rfl
  | some t =>
    have ht := List.mem_of_getElem? hi
    obtain ⟨hshape, hvalid⟩ := hw.soundTables t ht
    have hr := h.tables _ (List.mem_map_of_mem ht)
    have htwo := hvalid.two_le_tagBits
    have hindex := hshape.indexFold.value_eq hr.indexFold hvalid.log2_size_pos
    have htag := hshape.tagFold.value_eq hr.tagFold (by omega)
    have hshort := hshape.shortTagFold.value_eq hr.shortTagFold (by omega)
    have hpath := h.pathHash_eq hw hi hvalid.log2_size_pos
    simp only [Option.map_some, Function.comp_apply, referenceSlot, TaggedTable.index,
      TaggedTable.tag, hindex, htag, hshort, hpath, Nat.min_eq_left hvalid.tagBits_le,
      Nat.and_two_pow_sub_one_eq_mod]
    rfl

/-- Over a whole run, the registers hold the outcomes and the addresses that were shifted in, each
fold holds the fold from scratch of the outcomes that its table spans, and a branch is looked up
where the folds from scratch say. -/
theorem histories_run {c : Config} (hc : c.validate = .ok ()) :
    ∃ p, build c = .ok p ∧ ∀ calls, let q := p.run calls; let log := shiftedBy calls
      (q.global.length = c.globalLength ∧
        ∀ k < c.globalLength, q.global.bit k = outcomeBit log k) ∧
      (q.path.map PathHistory.config = c.path ∧
        ∀ h ∈ q.path, h.register.length = h.config.length ∧
          ∀ j < h.config.length, h.register.bit j = pathBit log h.config j) ∧
      (q.tables.map TaggedTable.config = c.tables ∧
        ∀ t ∈ q.tables, t.indexFold.Holds log t.config.size.log2 t.config.historyLength ∧
          t.tagFold.Holds log t.config.tagBits t.config.historyLength ∧
          t.shortTagFold.Holds log (t.config.tagBits - 1) t.config.historyLength) ∧
      ∀ pc, ∃ ctx, (q.predict pc).pending = some ctx ∧ ctx.pc = pc ∧
        ctx.slots = c.tables.mapIdx (referenceSlot log c pc) := by
  have hv := Config.validate_eq_ok.1 hc
  refine ⟨ofConfig c, build_eq_ok.2 ⟨hv, rfl⟩, fun calls => ?_⟩
  have hw := (wellFormed_ofConfig hv).run calls
  have hr := remembers_run hv calls
  have hcfg : ((ofConfig c).run calls).config = c := config_run _ _
  have hglobal := hw.global
  have hpath := hw.path_config
  have htables := hw.tables_config
  have hslots := fun pc => hr.slots_eq hw pc
  rw [hcfg] at hglobal hpath htables hslots
  dsimp only
  refine ⟨⟨hglobal, fun k hk => hr.global k (by omega)⟩,
    ⟨hpath, fun h hh => ⟨hw.path h hh, fun j hj => hr.path h hh j (by rwa [hw.path h hh])⟩⟩,
    ⟨htables, fun t ht => ?_⟩, fun pc => ⟨_, rfl, rfl, hslots pc⟩⟩
  have hshape := hw.tables t ht
  have hfolds := hr.tables _ (List.mem_map_of_mem ht)
  exact ⟨hfolds.indexFold.holds hshape.indexFold, hfolds.tagFold.holds hshape.tagFold,
    hfolds.shortTagFold.holds hshape.shortTagFold⟩

/-- The slots of a branch after two others. -/
theorem histories_run_small : ∃ p, build .small = .ok p ∧
    ((p.run [.resolve 6 0 .taken .directBranch, .advance 13 .notTaken, .predict 9]).pending.map
      Context.slots) = some [⟨1, 2⟩, ⟨0, 4⟩] := by
  obtain ⟨p, hb, h⟩ := histories_run (c := .small) (by decide)
  refine ⟨p, hb, ?_⟩
  obtain ⟨-, -, -, hlookup⟩ := h [.resolve 6 0 .taken .directBranch, .advance 13 .notTaken]
  obtain ⟨ctx, hctx, -, hslots⟩ := hlookup 9
  refine (congrArg (Option.map Context.slots) hctx).trans ?_
  rw [Option.map_some, hslots]
  decide

end Predictor

end BranchPrediction
