import BranchPrediction.Predictor.Allocation

/-!
# Changes in the slots of a branch

Training, aging and allocating change tagged entries in the slots of one branch only. All three are
`mapSlots` of a function on entries, and a sequence of them is `mapSlots` of the composed
function. `entryIn` reads one entry; `TaggedTable.frame` is all of a table but its entries.
-/

namespace BranchPrediction

/-- The entry at place `j` of tagged table `i`. -/
def entryIn (tables : List TaggedTable) (i j : Nat) : Option Entry :=
  tables[i]?.bind (·.entries[j]?)

/-- Changes the entries of a branch, each by a function of the number of its table and its
slot. -/
def mapSlots (slots : List Slot) (f : Nat → Slot → Entry → Entry) (tables : List TaggedTable) :
    List TaggedTable :=
  tables.mapIdx fun i t =>
    match slots[i]? with
    | some s => t.modify s.index (f i s)
    | none => t

def TaggedTable.frame (t : TaggedTable) : TaggedTable :=
  { t with entries := #[] }

theorem entryIn_eq_some {tables : List TaggedTable} {i j : Nat} {e : Entry} :
    entryIn tables i j = some e ↔ ∃ t, tables[i]? = some t ∧ t.entries[j]? = some e :=
  Option.bind_eq_some_iff

namespace TaggedTable

theorem getElem?_entries_modify (t : TaggedTable) (k j : Nat) (f : Entry → Entry) :
    (t.modify k f).entries[j]? = if k &&& t.mask = j then t.entries[j]?.map f
      else t.entries[j]? :=
  Array.getElem?_modify

@[simp] theorem size_entries_modify (t : TaggedTable) (k : Nat) (f : Entry → Entry) :
    (t.modify k f).entries.size = t.entries.size :=
  Array.size_modify

theorem modify_modify (t : TaggedTable) (k : Nat) (f g : Entry → Entry) :
    (t.modify k f).modify k g = t.modify k (g ∘ f) := by
  refine congrArg (fun es => { t with entries := es }) (Array.ext_getElem? fun j => ?_)
  change ((t.entries.modify (k &&& t.mask) f).modify (k &&& t.mask) g)[j]? = _
  simp only [Array.getElem?_modify]
  split <;> simp

theorem modify_id (t : TaggedTable) (k : Nat) : t.modify k (fun e => e) = t := by
  refine congrArg (fun es => { t with entries := es }) (Array.ext_getElem? fun j => ?_)
  simp [Array.getElem?_modify]

end TaggedTable

section
variable (slots : List Slot) (f : Nat → Slot → Entry → Entry) (tables : List TaggedTable)

@[simp] theorem length_mapSlots : (mapSlots slots f tables).length = tables.length :=
  List.length_mapIdx

theorem getElem?_mapSlots (i : Nat) : (mapSlots slots f tables)[i]? =
    tables[i]?.map fun t => match slots[i]? with
      | some s => t.modify s.index (f i s)
      | none => t :=
  List.getElem?_mapIdx

theorem map_mapSlots {α : Type} (φ : TaggedTable → α) (h : ∀ t k g, φ (t.modify k g) = φ t) :
    (mapSlots slots f tables).map φ = tables.map φ := by
  refine List.ext_getElem? fun i => ?_
  rw [List.getElem?_map, List.getElem?_map, getElem?_mapSlots, Option.map_map]
  congr 1
  funext t
  change φ (match slots[i]? with | some s => t.modify s.index (f i s) | none => t) = φ t
  cases slots[i]? with
  | some s => exact h ..
  | none => rfl

theorem map_frame_mapSlots :
    (mapSlots slots f tables).map TaggedTable.frame = tables.map TaggedTable.frame :=
  map_mapSlots _ _ _ _ fun _ _ _ => rfl

theorem mapSlots_congr {slots : List Slot} {f g : Nat → Slot → Entry → Entry}
    (h : ∀ i s e, f i s e = g i s e) (tables : List TaggedTable) :
    mapSlots slots f tables = mapSlots slots g tables := by
  rw [show f = g from funext fun i => funext fun s => funext fun e => h i s e]

theorem mapSlots_self : mapSlots slots (fun _ _ e => e) tables = tables := by
  refine List.ext_getElem? fun i => ?_
  rw [getElem?_mapSlots]
  cases slots[i]? <;> simp [TaggedTable.modify_id]

theorem mapSlots_mapSlots (g : Nat → Slot → Entry → Entry) :
    mapSlots slots g (mapSlots slots f tables)
      = mapSlots slots (fun i s e => g i s (f i s e)) tables := by
  refine List.ext_getElem? fun i => ?_
  simp only [getElem?_mapSlots, Option.map_map]
  congr 1
  funext t
  simp only [Function.comp_apply]
  cases slots[i]? with
  | some s => exact TaggedTable.modify_modify ..
  | none => rfl

theorem entryIn_mapSlots (i j : Nat) : entryIn (mapSlots slots f tables) i j =
    (entryIn tables i j).map fun e => match tables[i]?, slots[i]? with
      | some t, some s => if s.index &&& t.mask = j then f i s e else e
      | _, _ => e := by
  unfold entryIn
  rw [getElem?_mapSlots]
  cases tables[i]? with
  | none => rfl
  | some t =>
    cases slots[i]? with
    | none => simp
    | some s =>
      simp only [Option.map_some, Option.bind_some, TaggedTable.getElem?_entries_modify]
      split <;> simp

theorem entryIn_mapSlots_eq_self {i j : Nat} (h : ∀ t s e, tables[i]? = some t →
    slots[i]? = some s → s.index &&& t.mask = j → f i s e = e) :
    entryIn (mapSlots slots f tables) i j = entryIn tables i j := by
  rw [entryIn_mapSlots]
  cases entryIn tables i j with
  | none => rfl
  | some e =>
    refine congrArg some ?_
    split
    · next t s ht hs =>
      split
      · next hj => exact h t s e ht hs hj
      · rfl
    · rfl

end

/-- Tables are their frames and their entries. -/
theorem eq_of_frame_entryIn {q r : List TaggedTable}
    (hframe : r.map TaggedTable.frame = q.map TaggedTable.frame)
    (hentry : ∀ i j, entryIn r i j = entryIn q i j) : r = q := by
  have hlen : r.length = q.length := by simpa using congrArg List.length hframe
  refine List.ext_getElem hlen fun i hr hq => ?_
  have hf : r[i].frame = q[i].frame := by
    have := congrArg (·[i]?) hframe
    simpa [hr, hq] using this
  have he : r[i].entries = q[i].entries := by
    refine Array.ext_getElem? fun j => ?_
    have := hentry i j
    simpa [entryIn, hr, hq] using this
  calc r[i] = { r[i].frame with entries := r[i].entries } := rfl
    _ = { q[i].frame with entries := q[i].entries } := by rw [hf, he]
    _ = q[i] := rfl

theorem modifyAt_eq_mapSlots (tables : List TaggedTable) (slots : List Slot) (i : Nat)
    (f : Slot → Entry → Entry) : modifyAt tables slots i f =
      mapSlots slots (fun k s e => if k = i then f s e else e) tables := by
  refine List.ext_getElem? fun k => ?_
  rw [getElem?_mapSlots, modifyAt]
  by_cases hk : k = i
  · subst hk
    cases slots[k]? with
    | some s => simp only [List.getElem?_modify_eq, if_true]; rfl
    | none => simp
  · have hother : ∀ s t, TaggedTable.modify t s (fun e => e) = t := fun s t => t.modify_id s
    cases slots[i]? with
    | some s =>
      rw [List.getElem?_modify_ne _ _ (Ne.symm hk)]
      cases slots[k]? <;> simp [hk, hother]
    | none => cases slots[k]? <;> simp [hk, hother]

theorem ageFrom_eq_mapSlots (tables : List TaggedTable) (slots : List Slot) (start : Nat) :
    ageFrom tables slots start =
      mapSlots slots (fun i _ e => if start ≤ i then e.age else e) tables := by
  refine List.ext_getElem? fun i => ?_
  rw [getElem?_mapSlots, ageFrom, List.getElem?_mapIdx]
  congr 1
  funext t
  cases slots[i]? with
  | none => rfl
  | some s =>
    by_cases h : start ≤ i
    · simp [h]
    · simp [h, TaggedTable.modify_id]

end BranchPrediction
