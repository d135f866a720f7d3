import BranchPrediction.Proofs.Predictor.Conservation
import BranchPrediction.Proofs.Predictor.Entries

/-!
# Valid entries

An entry becomes valid when it is allocated, and then it stays valid (`isValid_run`). One call
allocates at most one entry, in a resolve, and counts it (`validCount_step`). So over a run the
valid entries are no more than the allocations that were counted.
-/

namespace BranchPrediction

def Predictor.validCount (q : Predictor) : Nat :=
  (q.tables.map TaggedTable.validCount).sum

theorem countP_eq_sum {α : Type} (p : α → Bool) (l : List α) :
    l.countP p = (l.map fun x => (p x).toNat).sum := by
  induction l with
  | nil => rfl
  | cons x l ih =>
    rw [List.countP_cons, List.map_cons, List.sum_cons, ih]
    cases p x
    · exact (Nat.zero_add _).symm
    · exact Nat.add_comm ..

/-- Changing one element adds at most one to the number of those that satisfy `p`, and none unless
`b`. -/
theorem countP_modify_le {α : Type} {p : α → Bool} {f : α → α} {b : Bool}
    (h : ∀ x, p (f x) = true → p x = true ∨ b = true) (l : List α) (i : Nat) :
    (l.modify i f).countP p ≤ l.countP p + b.toNat := by
  rw [countP_eq_sum, countP_eq_sum]
  cases hx : l[i]? with
  | none =>
    rw [List.modify_eq_self (List.getElem?_eq_none_iff.1 hx)]
    exact Nat.le_add_right ..
  | some x =>
    have hsum := sum_map_modify (f := f) (g := fun x => (p x).toNat) hx
    have hone : (p (f x)).toNat ≤ (p x).toNat + b.toNat := by
      cases hpf : p (f x) with
      | false => exact Nat.zero_le _
      | true =>
        rcases h x hpf with hp | hb
        · rw [hp]
          exact Nat.le_add_right ..
        · rw [hb]
          exact Nat.le_add_left ..
    omega

theorem sum_le_sum_add {l l' : List Nat} (hlen : l'.length = l.length) (k : Option Nat)
    (h : ∀ i a b, l[i]? = some a → l'[i]? = some b → b ≤ a + (k == some i).toNat) :
    l'.sum ≤ l.sum + k.isSome.toNat := by
  induction l generalizing l' k with
  | nil =>
    obtain rfl := List.eq_nil_of_length_eq_zero hlen
    exact Nat.zero_le _
  | cons a l ih =>
    cases l' with
    | nil => cases hlen
    | cons b l' =>
      have hhead := h 0 a b rfl rfl
      have hlen' : l'.length = l.length := Nat.succ.inj hlen
      rw [List.sum_cons, List.sum_cons]
      rcases k with _ | _ | k
      · have := ih hlen' none fun i a b ha hb => h (i + 1) a b ha hb
        simp at this hhead ⊢
        omega
      · have := ih hlen' none fun i a b ha hb => by simpa using h (i + 1) a b ha hb
        simp at this hhead ⊢
        omega
      · have := ih hlen' (some k) fun i a b ha hb => by simpa using h (i + 1) a b ha hb
        simp at this hhead ⊢
        omega

theorem TaggedTable.validCount_modify_le (t : TaggedTable) (k : Nat) {f : Entry → Entry} {b : Bool}
    (h : ∀ e, (f e).isValid = true → e.isValid = true ∨ b = true) :
    (t.modify k f).validCount ≤ t.validCount + b.toNat := by
  unfold validCount TaggedTable.modify
  rw [← Array.countP_toList, ← Array.countP_toList, Array.toList_modify]
  exact countP_modify_le h ..

theorem TaggedTable.validCount_clearUseful (t : TaggedTable) :
    t.clearUseful.validCount = t.validCount := by
  unfold validCount TaggedTable.clearUseful
  rw [Array.countP_map]
  rfl

theorem isValid_of_slotEffect {ctx : Context} {o : Outcome} {aged : Bool} {made : Option Nat}
    {i : Nat} {s : Slot} {e : Entry} (h : (slotEffect ctx o aged made i s e).isValid = true) :
    e.isValid = true ∨ (made == some i) = true := by
  by_cases hm : made = some i
  · exact .inr (by simp [hm])
  · refine .inl (Eq.trans ?_ h)
    unfold slotEffect
    rw [if_neg hm]
    split <;> split <;> rfl

namespace Predictor

variable {q : Predictor} {ctx : Context}

theorem allocations_resolvedTally (t : Tally) (ctx : Context) (o : Outcome) (a : Allocation)
    (reset : Bool) :
    (resolvedTally t ctx o a reset).allocations = t.allocations + a.table?.isSome.toNat := by
  have hprovider : ∀ (t : Tally) p b, (t.countProvider p b).allocations = t.allocations := by
    intro t p b
    cases p <;> cases b <;> rfl
  unfold resolvedTally Tally.tick
  rw [Tally.countReset_eq, Tally.countOverride_eq]
  cases a <;> simp [Tally.countAllocation, hprovider, Allocation.table?]

theorem sum_validCount_map {g : TaggedTable → TaggedTable}
    (h : ∀ t, (g t).validCount = t.validCount) (tables : List TaggedTable) :
    ((tables.map g).map TaggedTable.validCount).sum
      = (tables.map TaggedTable.validCount).sum := by
  rw [List.map_map]
  exact congrArg List.sum (List.map_congr_left fun t _ => h t)

theorem validCount_advance (q : Predictor) (pc : UInt64) (o : Outcome) :
    (q.advance pc o).validCount = q.validCount :=
  sum_validCount_map (g := (·.follow (q.global.push o.toBool))) (fun _ => rfl) q.tables

theorem validCount_clearUseful (q : Predictor) : q.clearUseful.validCount = q.validCount :=
  sum_validCount_map TaggedTable.validCount_clearUseful q.tables

/-- Of the entries in the slots of a branch, only the one that is allocated may become valid. -/
theorem sum_validCount_slotEffect (slots : List Slot) (ctx : Context) (o : Outcome) (aged : Bool)
    (made : Option Nat) (tables : List TaggedTable) :
    ((mapSlots slots (slotEffect ctx o aged made) tables).map TaggedTable.validCount).sum
      ≤ (tables.map TaggedTable.validCount).sum + made.isSome.toNat := by
  refine sum_le_sum_add (by simp) made fun i a b ha hb => ?_
  rw [List.getElem?_map, Option.map_eq_some_iff] at ha hb
  obtain ⟨t, ht, rfl⟩ := ha
  obtain ⟨u, hu, rfl⟩ := hb
  rw [getElem?_mapSlots, ht] at hu
  obtain rfl := Option.some.inj hu
  cases slots[i]? with
  | none => exact Nat.le_add_right ..
  | some s => exact t.validCount_modify_le s.index fun e => isValid_of_slotEffect

theorem validCount_resolve_of_some (hp : q.pending = some ctx) (pc target : UInt64) (o : Outcome)
    (kind : Kind) : ∃ a : Allocation,
      (q.resolve pc target o kind).validCount ≤ q.validCount + a.table?.isSome.toNat ∧
      (q.resolve pc target o kind).tally.allocations
        = q.tally.allocations + a.table?.isSome.toNat := by
  obtain ⟨aged, htables, -⟩ := (q.advance pc o).allocated_cases ctx o
  have hsum := sum_validCount_slotEffect ctx.slots ctx o aged
    ((q.advance pc o).allocated ctx o).2.table? (q.advance pc o).tables
  rw [← htables, ← validCount, validCount_advance] at hsum
  refine ⟨((q.advance pc o).allocated ctx o).2, ?_, ?_⟩
  all_goals rw [resolve_of_some o pc target kind hp]
  · unfold validCount
    dsimp only
    split
    · rw [sum_validCount_map TaggedTable.validCount_clearUseful]
      exact hsum
    · exact hsum
  · exact allocations_resolvedTally ..

/-- A call makes at most one entry valid, and only if it resolves a branch and counts an
allocation. -/
theorem validCount_step (q : Predictor) (call : Call) : ∃ made : Bool,
    (q.step call).validCount ≤ q.validCount + made.toNat ∧
    (q.step call).tally.allocations = q.tally.allocations + made.toNat ∧
    (made = true → call.isResolve = true) := by
  cases call with
  | predict pc => exact ⟨false, Nat.le_refl _, rfl, nofun⟩
  | advance pc o =>
    exact ⟨false, Nat.le_of_eq (q.validCount_advance pc o), rfl, nofun⟩
  | clearUseful => exact ⟨false, Nat.le_of_eq q.validCount_clearUseful, rfl, nofun⟩
  | resolve pc target o kind =>
    rw [step_resolve]
    cases hp : q.pending with
    | none =>
      rw [resolve_of_none o pc target kind hp]
      exact ⟨false, Nat.le_of_eq (q.validCount_advance pc o), rfl, nofun⟩
    | some ctx =>
      obtain ⟨a, hcount, hallocations⟩ := validCount_resolve_of_some hp pc target o kind
      exact ⟨a.table?.isSome, hcount, hallocations, fun _ => rfl⟩

theorem validCount_run_le (q : Predictor) (calls : List Call) :
    (q.run calls).validCount ≤ q.validCount + calls.countP Call.isResolve := by
  induction calls generalizing q with
  | nil => exact Nat.le_refl _
  | cons call calls ih =>
    obtain ⟨made, hcount, -, hresolve⟩ := q.validCount_step call
    have hrest := ih (q.step call)
    have hmade : made.toNat ≤ (call.isResolve).toNat := by
      cases made with
      | false => exact Nat.zero_le _
      | true => exact Nat.le_of_eq (congrArg Bool.toNat (hresolve rfl).symm)
    have hcons : (call :: calls).countP Call.isResolve
        = call.isResolve.toNat + calls.countP Call.isResolve := by
      rw [countP_eq_sum, countP_eq_sum, List.map_cons, List.sum_cons]
    rw [run_cons, hcons]
    omega

theorem validCount_ofConfig (c : Config) : (ofConfig c).validCount = 0 := by
  unfold validCount
  rw [List.sum_eq_zero_iff_forall_eq_nat]
  intro n hn
  obtain ⟨t, ht, rfl⟩ := List.mem_map.1 hn
  obtain ⟨i, hi, rfl⟩ := List.mem_mapIdx.1 ht
  simp [TaggedTable.validCount, TaggedTable.ofConfig, Entry.isValid, Entry.fresh]

theorem validCount_le_allocations (c : Config) (calls : List Call) :
    ((ofConfig c).run calls).validCount ≤ ((ofConfig c).run calls).tally.allocations := by
  refine run_induction (P := fun q => q.validCount ≤ q.tally.allocations) ?_ ?_ calls
  · rw [validCount_ofConfig]
    exact Nat.zero_le _
  · intro q call hq
    obtain ⟨made, hcount, hallocations, -⟩ := q.validCount_step call
    omega

/-! ## Entries with a tag -/

theorem EntryStep.isValid {q : Predictor} {call : Call} {i : Nat} {e e' : Entry}
    (h : EntryStep q call i e e') (he : e.isValid = true) : e'.isValid = true := by
  induction h with
  | allocated => rfl
  | cleared _ ih => exact ih
  | _ => exact he

theorem isValid_run {c : Config} (hc : c.Valid) (calls more : List Call) {i j : Nat} {e : Entry}
    (he : entryIn ((ofConfig c).run calls).tables i j = some e) (hv : e.isValid = true) :
    ∃ e', entryIn ((ofConfig c).run (calls ++ more)).tables i j = some e' ∧ e'.isValid = true := by
  induction more using List.reverseRecOn with
  | nil =>
    rw [List.append_nil]
    exact ⟨e, he, hv⟩
  | append_singleton more call ih =>
    obtain ⟨e', he', hv'⟩ := ih
    have hrel := entryIn_step (answers_pending hc (calls ++ more)) call i j
    rw [he'] at hrel
    rw [← List.append_assoc, run_concat]
    cases hnext : entryIn (((ofConfig c).run (calls ++ more)).step call).tables i j with
    | none => rw [hnext] at hrel; cases hrel
    | some e'' =>
      rw [hnext] at hrel
      cases hrel with
      | some hstep => exact ⟨e'', rfl, EntryStep.isValid hstep hv'⟩

end Predictor

end BranchPrediction
