import BranchPrediction.Predictor.Tally

/-!
# Allocation

After a wrong prediction, the branch is given an entry in a table with a longer history than the
provider's. Only entries that are not useful can be replaced. If there is none, the entries of the
branch in those tables all lose one step of usefulness, and one more attempt is made.
-/

namespace BranchPrediction

/-- The entry of a branch in a tagged table, if both the table and the slot are there. -/
def entryAt? (tables : List TaggedTable) (slots : List Slot) (i : Nat) : Option Entry :=
  match tables[i]?, slots[i]? with
  | some t, some s => some (t.entry s.index)
  | _, _ => none

/-- Changes the entry of a branch in a tagged table. -/
def modifyAt (tables : List TaggedTable) (slots : List Slot) (i : Nat)
    (f : Slot → Entry → Entry) : List TaggedTable :=
  match slots[i]? with
  | some s => tables.modify i fun t => t.modify s.index (f s)
  | none => tables

/-- The tables from number `start` on whose entry of the branch can be replaced. -/
def candidates (tables : List TaggedTable) (slots : List Slot) (start : Nat) : List Nat :=
  (List.range tables.length).filter fun i =>
    start ≤ i && (entryAt? tables slots i).any Entry.isReplaceable

/-- Takes one step of usefulness from the entries of the branch in the tables from number `start`
on. -/
def ageFrom (tables : List TaggedTable) (slots : List Slot) (start : Nat) : List TaggedTable :=
  tables.mapIdx fun i t =>
    match slots[i]? with
    | some s => if start ≤ i then t.modify s.index Entry.age else t
    | none => t

/-- Gives the entry in one of the candidate tables to the branch, the one that `choice` falls on
when the candidates are counted round and round. -/
def claim (tables : List TaggedTable) (slots : List Slot) (outcome : Outcome) (choice : Nat)
    (among : List Nat) : List TaggedTable × Allocation :=
  match among[choice % among.length]? with
  | some i => (modifyAt tables slots i fun s e => e.allocate s.tag outcome, .made i)
  | none => (tables, .failed)

/-- Allocates an entry for a branch in a table from number `start` on. -/
def allocate (tables : List TaggedTable) (slots : List Slot) (start : Nat) (outcome : Outcome)
    (choice : Nat) : List TaggedTable × Allocation :=
  match candidates tables slots start with
  | [] =>
    let aged := ageFrom tables slots start
    claim aged slots outcome choice (candidates aged slots start)
  | among => claim tables slots outcome choice among

end BranchPrediction
