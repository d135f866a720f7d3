import BranchPrediction.Predictor.Run
import BranchPrediction.Proofs.Predictor.Slots

/-!
# What a call changes

The state after each call, field by field. A resolved prediction changes tagged entries by one
`slotEffect` in the slots of its branch: the provider is trained, the entries of the branch in
tables with longer histories may age, and one of these may be given to the branch.
-/

namespace BranchPrediction

def Allocation.table? : Allocation → Option Nat
  | .made i => some i
  | _ => none

/-- What becomes of the entry of a resolved branch in slot `s` of table `i`, if the entries in
longer tables `aged` and the one in table `made` was allocated. -/
def slotEffect (ctx : Context) (outcome : Outcome) (aged : Bool) (made : Option Nat) (i : Nat)
    (s : Slot) (e : Entry) : Entry :=
  let trained :=
    if ctx.provider = .tagged i then e.train ctx.providerOutcome ctx.alternateOutcome outcome
    else e
  let older := if aged = true ∧ ctx.provider.next ≤ i then trained.age else trained
  if made = some i then older.allocate s.tag outcome else older

section
variable (tables : List TaggedTable) (slots : List Slot) (start : Nat) (outcome : Outcome)
  (choice : Nat)

theorem mem_candidates {tables : List TaggedTable} {slots : List Slot} {start i : Nat} :
    i ∈ candidates tables slots start ↔ i < tables.length ∧ start ≤ i ∧
      ∃ e, entryAt? tables slots i = some e ∧ e.isReplaceable = true := by
  simp [candidates, List.mem_filter, Option.any_eq_true]

/-- An attempt takes one of the candidates, the one that the choice falls on. It fails only
without a candidate. -/
theorem claim_cases (among : List Nat) :
    (among = [] ∧ claim tables slots outcome choice among = (tables, .failed)) ∨
      ∃ i ∈ among, among[choice % among.length]? = some i ∧
        claim tables slots outcome choice among
          = (mapSlots slots (fun k s e => if k = i then e.allocate s.tag outcome else e) tables,
            .made i) := by
  by_cases h : among = []
  · subst h; exact .inl ⟨rfl, rfl⟩
  · have hlt := Nat.mod_lt choice (List.length_pos_iff.2 h)
    have hi := List.getElem?_eq_getElem hlt
    exact .inr ⟨_, List.getElem_mem hlt, hi, by rw [claim, hi, ← modifyAt_eq_mapSlots]⟩

/-- Without a candidate the entries of the branch age first; then there is one attempt. -/
theorem allocate_eq : ∃ aged : Bool, (aged = true ↔ candidates tables slots start = []) ∧
    let older := mapSlots slots (fun i _ e => if aged = true ∧ start ≤ i then e.age else e) tables
    allocate tables slots start outcome choice
      = claim older slots outcome choice (candidates older slots start) := by
  by_cases h : candidates tables slots start = []
  · refine ⟨true, by simp [h], ?_⟩
    simp only [allocate, h, ageFrom_eq_mapSlots, true_and]
  · refine ⟨false, by simp [h], ?_⟩
    simp only [Bool.false_eq_true, false_and, if_false, mapSlots_self]
    unfold allocate
    split
    · next he => exact absurd he h
    · rfl

end

namespace Predictor

variable (p : Predictor) (ctx : Context) (outcome : Outcome)

theorem trainedTables_eq_mapSlots : p.trainedTables ctx outcome =
    mapSlots ctx.slots (slotEffect ctx outcome false none) p.tables := by
  unfold trainedTables
  split
  · next h =>
    refine (mapSlots_self ctx.slots p.tables).symm.trans (mapSlots_congr (fun i s e => ?_) _)
    simp [slotEffect, h]
  · next i h =>
    rw [modifyAt_eq_mapSlots]
    refine mapSlots_congr (fun k s e => ?_) _
    simp [slotEffect, h, eq_comm]

/-- Training and allocation change the entries of the branch, and nothing else of the tagged
tables. Entries age or are allocated only after a wrong prediction, and only in tables with longer
histories than the provider's. -/
theorem allocated_cases : ∃ aged : Bool,
    (p.allocated ctx outcome).1 = mapSlots ctx.slots
        (slotEffect ctx outcome aged (p.allocated ctx outcome).2.table?) p.tables ∧
      (aged = true → ctx.outcome ≠ outcome) ∧
      ((p.allocated ctx outcome).2 = .notNeeded ↔ ctx.outcome = outcome) ∧
      ∀ i, (p.allocated ctx outcome).2 = .made i →
        ctx.provider.next ≤ i ∧ i < p.tables.length := by
  unfold allocated
  dsimp only
  rw [trainedTables_eq_mapSlots]
  by_cases h : ctx.outcome = outcome
  · rw [if_pos h]
    exact ⟨false, rfl, by simp, by simp [h], by simp⟩
  · obtain ⟨aged, -, ha⟩ := allocate_eq
      (mapSlots ctx.slots (slotEffect ctx outcome false none) p.tables) ctx.slots
      ctx.provider.next outcome (p.generator.output >>> 32).toNat
    rw [if_neg h, ha, mapSlots_mapSlots]
    refine ⟨aged, ?_⟩
    rcases claim_cases _ ctx.slots outcome (p.generator.output >>> 32).toNat _
      with ⟨-, hc⟩ | ⟨i, hi, -, hc⟩
    all_goals rw [hc]
    · refine ⟨mapSlots_congr (fun k s e => ?_) _, fun _ => h, by simp [h], by simp⟩
      simp [slotEffect, Allocation.table?]
    · obtain ⟨hlt, hstart, -⟩ := mem_candidates.1 hi
      rw [length_mapSlots] at hlt
      refine ⟨?_, fun _ => h, by simp [h], by rintro _ ⟨⟩; exact ⟨hstart, hlt⟩⟩
      rw [mapSlots_mapSlots]
      refine mapSlots_congr (fun k s e => ?_) _
      simp [slotEffect, Allocation.table?, eq_comm]

/-! ## Resolving -/

section
variable {p ctx} (pc target : UInt64) (kind : Kind)

theorem resolve_of_none (h : p.pending = none) : p.resolve pc target outcome kind =
    { p.advance pc outcome with tally := p.tally.countOrphan.tick } := by
  simp only [resolve, h]
  rw [← h]
  rfl

def resolvedTally (t : Tally) (ctx : Context) (outcome : Outcome) (allocation : Allocation)
    (reset : Bool) : Tally :=
  ((((t.countOverride ctx.isOverride (ctx.outcome == outcome)).countProvider ctx.provider
    (ctx.providerOutcome == outcome)).countAllocation allocation).countReset reset).tick

/-- A resolved prediction moves the histories on before it is learned from. -/
theorem resolve_of_some (h : p.pending = some ctx) : p.resolve pc target outcome kind =
    { p.advance pc outcome with
      base := p.trainedBase ctx outcome
      tables :=
        if p.resetsNext then
          ((p.advance pc outcome).allocated ctx outcome).1.map TaggedTable.clearUseful
        else ((p.advance pc outcome).allocated ctx outcome).1
      overlay := p.trainedOverlay ctx outcome
      generator := p.generator.advance
      tally := resolvedTally p.tally ctx outcome ((p.advance pc outcome).allocated ctx outcome).2
        p.resetsNext
      pending := none } := by
  simp only [resolve, h]
  rfl

theorem useful_eq_zero_of_reset (h : p.pending = some ctx) (hreset : p.resetsNext = true) :
    ∀ t ∈ (p.resolve pc target outcome kind).tables, ∀ e ∈ t.entries, e.useful.value = 0 := by
  intro t ht e he
  rw [resolve_of_some outcome pc target kind h] at ht
  dsimp only at ht
  rw [if_pos hreset] at ht
  obtain ⟨u, -, rfl⟩ := List.mem_map.1 ht
  obtain ⟨e, -, rfl⟩ := Array.mem_map.1 he
  exact Nat.zero_min _

end

theorem map_frame_clearUseful (tables : List TaggedTable) :
    (tables.map TaggedTable.clearUseful).map TaggedTable.frame = tables.map TaggedTable.frame := by
  rw [List.map_map]
  rfl

/-- But for their entries, the tables of a resolved branch are the tables after the histories moved
on. -/
theorem map_frame_resolve (pc target : UInt64) (kind : Kind) :
    (p.resolve pc target outcome kind).tables.map TaggedTable.frame
      = (p.advance pc outcome).tables.map TaggedTable.frame := by
  cases hp : p.pending with
  | none => rw [resolve_of_none outcome pc target kind hp]
  | some ctx =>
    obtain ⟨aged, htables, -⟩ := (p.advance pc outcome).allocated_cases ctx outcome
    rw [resolve_of_some outcome pc target kind hp]
    dsimp only
    rw [htables]
    split
    · rw [map_frame_clearUseful, map_frame_mapSlots]
    · rw [map_frame_mapSlots]

end Predictor

end BranchPrediction
