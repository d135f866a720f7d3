import BranchPrediction.Proofs.Predictor.Footprint

/-!
# Candidates for allocation

Which entry an allocation takes can be said of the tables as they were before: `eligible` lists the
tables in which the entry of the branch is not useful, or, if there is none, those in which it is a
step from that. An allocation takes the one that the choice falls on (`allocate_table?`), and
training the provider first makes no difference to the list (`eligible_trainedTables`).
-/

namespace BranchPrediction

section
variable (bound : Nat) (tables : List TaggedTable) (slots : List Slot) (start : Nat)

/-- The tables from number `start` on whose entry of a branch has a usefulness of at most `bound`,
from the shortest history to the longest. -/
def withUseful : List Nat :=
  (List.range tables.length).filter fun i =>
    start ≤ i && (entryAt? tables slots i).any fun e => e.useful.value ≤ bound

/-- The tables from number `start` on in which a branch may be given an entry, from the shortest
history to the longest. -/
def eligible : List Nat :=
  if withUseful 0 tables slots start = [] then withUseful 1 tables slots start
  else withUseful 0 tables slots start

theorem withUseful_pairwise : (withUseful bound tables slots start).Pairwise (· < ·) :=
  List.pairwise_lt_range.filter _

theorem eligible_pairwise : (eligible tables slots start).Pairwise (· < ·) := by
  unfold eligible
  split
  · exact withUseful_pairwise ..
  · exact withUseful_pairwise ..

theorem candidates_eq_withUseful :
    candidates tables slots start = withUseful 0 tables slots start := by
  have hentry : ∀ e : Entry, e.isReplaceable = decide (e.useful.value ≤ 0) := by
    intro e
    rw [Bool.eq_iff_iff]
    simp [Entry.isReplaceable]
  unfold candidates withUseful
  simp only [funext hentry]

end

section
variable {tables tables' : List TaggedTable} {slots : List Slot} {start : Nat}

theorem withUseful_congr {bound bound' : Nat} (hlen : tables'.length = tables.length)
    (h : ∀ i, start ≤ i → (entryAt? tables' slots i).any (fun e => e.useful.value ≤ bound')
      = (entryAt? tables slots i).any (fun e => e.useful.value ≤ bound)) :
    withUseful bound' tables' slots start = withUseful bound tables slots start := by
  unfold withUseful
  rw [hlen]
  refine List.filter_congr fun i _ => ?_
  by_cases hi : start ≤ i
  · rw [h i hi]
  · simp [hi]

theorem eligible_congr (hlen : tables'.length = tables.length)
    (h : ∀ i, start ≤ i → (entryAt? tables' slots i).map Entry.useful
      = (entryAt? tables slots i).map Entry.useful) :
    eligible tables' slots start = eligible tables slots start := by
  have hwith : ∀ bound,
      withUseful bound tables' slots start = withUseful bound tables slots start := by
    intro bound
    refine withUseful_congr hlen fun i hi => ?_
    have hany : ∀ x : Option Entry, x.any (fun e => e.useful.value ≤ bound)
        = (x.map Entry.useful).any (fun k => k.value ≤ bound) := by
      intro x
      cases x <;> rfl
    rw [hany, h i hi, hany]
  unfold eligible
  rw [hwith, hwith]

theorem entryAt?_of_slot_none {i : Nat} (h : slots[i]? = none) :
    entryAt? tables slots i = none := by
  unfold entryAt?
  rw [h]
  cases tables[i]? <;> rfl

theorem entryAt?_mapSlots (h : SoundTables tables) (f : Nat → Slot → Entry → Entry) (i : Nat) :
    entryAt? (mapSlots slots f tables) slots i = match slots[i]? with
      | some s => (entryAt? tables slots i).map (f i s)
      | none => none := by
  unfold entryAt?
  rw [getElem?_mapSlots]
  cases ht : tables[i]? with
  | none => cases slots[i]? <;> rfl
  | some t =>
    cases slots[i]? with
    | none => rfl
    | some s =>
      obtain ⟨hw, hv⟩ := h t (List.mem_of_getElem? ht)
      have hentry := hw.shaped.getElem?_entries hv s.index
      have hmodified : (t.modify s.index (f i s)).entry s.index = f i s (t.entry s.index) := by
        change (t.modify s.index (f i s)).entries[s.index &&& t.mask]?.getD _ = _
        rw [TaggedTable.getElem?_entries_modify, if_pos rfl, hentry]
        rfl
      exact congrArg some hmodified

theorem entryAt?_eq_some (h : SoundTables tables) {i : Nat} {e : Entry} :
    entryAt? tables slots i = some e ↔ ∃ t s, tables[i]? = some t ∧ slots[i]? = some s ∧
      t.entries[s.index &&& t.mask]? = some e := by
  unfold entryAt?
  cases ht : tables[i]? with
  | none => simp
  | some t =>
    obtain ⟨hw, hv⟩ := h t (List.mem_of_getElem? ht)
    cases hs : slots[i]? with
    | none => simp
    | some s => simp [hw.shaped.getElem?_entries hv s.index]

theorem mem_withUseful {bound i : Nat} :
    i ∈ withUseful bound tables slots start ↔ i < tables.length ∧ start ≤ i ∧
      ∃ e, entryAt? tables slots i = some e ∧ e.useful.value ≤ bound := by
  simp [withUseful, List.mem_filter, Option.any_eq_true]

theorem lt_length_of_entryAt? {i : Nat} {e : Entry}
    (h : entryAt? tables slots i = some e) : i < tables.length := by
  by_contra hi
  have ht : tables[i]? = none := List.getElem?_eq_none (Nat.not_lt.1 hi)
  rw [entryAt?, ht] at h
  cases h

/-- Entries that are a step from being replaceable can be replaced after they aged. -/
theorem candidates_aged (h : SoundTables tables) :
    candidates (mapSlots slots (fun i _ e => if start ≤ i then e.age else e) tables) slots start
      = withUseful 1 tables slots start := by
  rw [candidates_eq_withUseful]
  refine withUseful_congr (length_mapSlots ..) fun i hi => ?_
  rw [entryAt?_mapSlots h]
  cases hs : slots[i]? with
  | none =>
    rw [entryAt?_of_slot_none hs]
    rfl
  | some s =>
    cases entryAt? tables slots i with
    | none => rfl
    | some e =>
      simp only [Option.map_some, Option.any_some, if_pos hi, Entry.age, Counter.value_decrement,
        decide_eq_decide]
      omega

theorem claim_table? (tables : List TaggedTable) (slots : List Slot) (o : Outcome) (choice : Nat)
    (among : List Nat) :
    (claim tables slots o choice among).2.table? = among[choice % among.length]? := by
  unfold claim
  cases among[choice % among.length]? <;> rfl

/-- An allocation takes the eligible table that the choice falls on. -/
theorem allocate_table? (h : SoundTables tables) (o : Outcome) (choice : Nat) :
    (allocate tables slots start o choice).2.table?
      = (eligible tables slots start)[choice % (eligible tables slots start).length]? := by
  unfold allocate eligible
  rw [candidates_eq_withUseful]
  split
  · next hnone =>
    dsimp only
    rw [claim_table?, ageFrom_eq_mapSlots, candidates_aged h, if_pos hnone]
  · next hsome =>
    rw [claim_table?, if_neg hsome]

end

namespace Predictor

variable {q : Predictor} (ctx : Context) (o : Outcome)

theorem eligible_trainedTables (h : SoundTables q.tables) :
    eligible (q.trainedTables ctx o) ctx.slots ctx.provider.next
      = eligible q.tables ctx.slots ctx.provider.next := by
  rw [trainedTables_eq_mapSlots]
  refine eligible_congr (length_mapSlots ..) fun i hi => ?_
  rw [entryAt?_mapSlots h]
  cases hs : ctx.slots[i]? with
  | none => rw [entryAt?_of_slot_none hs]
  | some s =>
    have heffect : slotEffect ctx o false none i s = id := by
      funext e
      rw [slotEffect_longer s e hi (by simp)]
      rfl
    dsimp only
    rw [heffect, Option.map_id, id]

theorem eligible_advance (q : Predictor) (pc : UInt64) (start : Nat) :
    eligible (q.advance pc o).tables ctx.slots start = eligible q.tables ctx.slots start := by
  refine eligible_congr (List.length_map _) fun i _ => ?_
  unfold entryAt? advance
  rw [List.getElem?_map]
  cases q.tables[i]? with
  | none => rfl
  | some t => cases ctx.slots[i]? <;> rfl

end Predictor

/-- The table in which a resolved branch is given an entry when `draw` is drawn: none after a right
prediction or without an eligible table, and otherwise the eligible table that the high half of the
number falls on. -/
def Context.pick (ctx : Context) (tables : List TaggedTable) (o : Outcome) (draw : UInt64) :
    Option Nat :=
  let among := eligible tables ctx.slots ctx.provider.next
  if ctx.outcome = o then none else among[(draw >>> 32).toNat % among.length]?

/-- What is allocated for a resolved branch is decided by the tables and the number that is drawn
next. -/
theorem Predictor.WellFormed.table?_allocated {q : Predictor} (h : q.WellFormed) (pc : UInt64)
    (ctx : Context) (o : Outcome) :
    ((q.advance pc o).allocated ctx o).2.table? = ctx.pick q.tables o q.generator.output := by
  have hsound := (h.advance pc o).soundTables
  have htrained : SoundTables ((q.advance pc o).trainedTables ctx o) := by
    rw [trainedTables_eq_mapSlots]
    exact hsound.mapSlots _ fun i s c e he => he.slotEffect ..
  unfold allocated Context.pick
  by_cases hright : ctx.outcome = o
  · rw [if_pos hright, if_pos hright]
    rfl
  · rw [if_neg hright, if_neg hright, allocate_table? htrained, eligible_trainedTables _ _ hsound,
      eligible_advance]
    rfl

end BranchPrediction
