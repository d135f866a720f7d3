import BranchPrediction.Evaluation.Session
import BranchPrediction.Proofs.Config.Valid
import Mathlib.Data.List.Forall2

/-!
# What a simulation sees of its records

A record counts by the address and the outcome of a conditional branch, `Record.branch?`, and by
nothing else. `Simulation.run_eq_visits` rewrites a simulation as one over these pairs, so records
without one may stand anywhere. Main statement: `Simulation.branches_run`, for the state at the end
and for what a session prints.
-/

namespace BranchPrediction

theorem Flags.and_eq_of_and_eq {x y mask part : UInt32} (hpart : mask &&& part = part)
    (h : x &&& mask = y &&& mask) : x &&& part = y &&& part := by
  rw [← hpart, ← UInt32.and_assoc, ← UInt32.and_assoc, h]

namespace Record

/-- The address and the outcome of a conditional branch. Other records have none, also those that
have the branch bit set and name no kind. -/
def branch? (r : Record) : Option (UInt64 × Outcome) :=
  if r.kind? = some .directBranch then some (r.pc, r.outcome) else none

/-- Records that differ at most in their targets and in the flag bits above the taken bit. -/
structure Alike (r s : Record) : Prop where
  pc : r.pc = s.pc
  bits : r.flags.bits &&& (Kind.mask ||| Flags.takenBit)
    = s.flags.bits &&& (Kind.mask ||| Flags.takenBit)

theorem isSome_branch? (r : Record) : r.branch?.isSome = (r.kind? == some .directBranch) := by
  unfold branch?
  by_cases h : r.kind? = some .directBranch
  · rw [if_pos h, h]; rfl
  · rw [if_neg h, beq_eq_false_iff_ne.2 h]; rfl

theorem Alike.branch? {r s : Record} (h : r.Alike s) : r.branch? = s.branch? := by
  have hkind : r.kind? = s.kind? := by
    unfold kind? Flags.kind? Kind.ofBits?
    rw [Flags.and_eq_of_and_eq (by decide) h.bits]
  have houtcome : r.outcome = s.outcome := by
    unfold outcome Flags.isTaken
    rw [Flags.and_eq_of_and_eq (by decide) h.bits]
  unfold Record.branch?
  rw [hkind, houtcome, h.pc]

theorem filterMap_branch?_of_alike {A B : List Record} (h : List.Forall₂ Alike A B) :
    A.filterMap branch? = B.filterMap branch? := by
  induction h with
  | nil => rfl
  | cons hab _ ih => rw [List.filterMap_cons, List.filterMap_cons, hab.branch?, ih]

end Record

namespace Simulation

/-! ## Simulations -/

/-- The records that a simulation comes to. -/
def visited (limit : Option Nat) (records : List Record) : List Record :=
  match limit with
  | some n => records.take n
  | none => records

def visit (s : Simulation) (b : UInt64 × Outcome) : Simulation where
  predictor := (s.predictor.predict b.1).resolve b.1 0 b.2 .directBranch
  accuracy :=
    s.accuracy.update (.ofKind b.1 0 .directBranch b.2) (s.predictor.lookup b.1).outcome

variable (s : Simulation)

theorem observe_eq_visit (r : Record) :
    s.observe r .directBranch = s.visit (r.pc, r.outcome) := by
  unfold visit observe Accuracy.update
  rw [Record.outcome_ofKind]
  rfl

theorem step_eq_visit (r : Record) :
    s.step r = match r.branch? with
      | some b => s.visit b
      | none => s := by
  unfold step Record.branch?
  cases hk : r.kind? with
  | none => rfl
  | some kind =>
    cases kind with
    | directBranch => exact s.observe_eq_visit r
    | _ => rfl

theorem run_eq_visits (limit : Option Nat) (records : List Record) :
    s.run limit records = ((visited limit records).filterMap Record.branch?).foldl visit s := by
  have hrun : s.run limit records = (visited limit records).foldl step s := by
    cases limit <;> rfl
  rw [hrun, List.foldl_filterMap]
  congr 1
  funext s r
  rw [step_eq_visit]
  cases r.branch? <;> rfl

variable {s}

theorem run_congr {la lb : Option Nat} {A B : List Record}
    (h : (visited la A).filterMap Record.branch? = (visited lb B).filterMap Record.branch?) :
    s.run la A = s.run lb B := by
  rw [run_eq_visits, run_eq_visits, h]

theorem run_eq_of_alike {A B : List Record} (h : List.Forall₂ Record.Alike A B)
    (limit : Option Nat) : s.run limit A = s.run limit B := by
  refine run_congr (Record.filterMap_branch?_of_alike ?_)
  cases limit with
  | none => exact h
  | some n => exact List.forall₂_take n h

end Simulation

/-! ## Sessions -/

theorem Trace.ofFile_ok {bytes : List UInt8} {records : List Record} (path : String)
    (h : recordsOfBytes? bytes = some records) :
    ofFile path (.ok bytes) = .ok ⟨fileName path, records⟩ := by
  show ofBytes (fileName path) bytes = _
  rw [ofBytes, h]

/-- Sessions on files with two lists of records print the same, apart from the number of records
that were loaded. -/
def Session.Agree (o : Options) (A B : List Record) : Prop :=
  ∀ (contents : Option (Except FileError String)) (a b : List UInt8),
    recordsOfBytes? a = some A → recordsOfBytes? b = some B →
    ∃ opening results failure,
      run o (.ok a) contents
        = ⟨Report.loadedLine o.tracePath A.length :: opening, results, failure⟩ ∧
      run o (.ok b) contents
        = ⟨Report.loadedLine o.tracePath B.length :: opening, results, failure⟩

theorem Session.agree_of_run_eq {o : Options} {A B : List Record}
    (h : ∀ s : Simulation, s.run o.limit A = s.run o.limit B) : Agree o A B := by
  intro contents a b ha hb
  unfold run
  rw [Trace.ofFile_ok _ ha, Trace.ofFile_ok _ hb]
  dsimp only
  cases predictor o contents with
  | error e => exact ⟨_, _, _, rfl, rfl⟩
  | ok p => exact ⟨_, _, _, rfl, by rw [h]⟩

namespace Simulation

/-- If two lists of records have the same conditional branches, with the same addresses and
outcomes, then their simulations end in the same state and their sessions print the same, apart
from the number of records. Targets and flag bits above the taken bit have no effect, and records
that are passed over count toward a limit. -/
theorem branches_run (s : Simulation) (A B : List Record) :
    (A.filterMap Record.branch? = B.filterMap Record.branch? →
      s.run none A = s.run none B ∧ ∀ o : Options, o.limit = none → Session.Agree o A B) ∧
    (List.Forall₂ Record.Alike A B →
      (∀ limit, s.run limit A = s.run limit B) ∧ ∀ o, Session.Agree o A B) ∧
    ∀ n, s.run (some n) A = s.run none (A.take n) := by
  refine ⟨fun h => ?_, fun h => ?_, fun n => rfl⟩
  · exact ⟨run_congr h, fun o ho => Session.agree_of_run_eq fun s => by
      rw [ho]
      exact run_congr h⟩
  · exact ⟨run_eq_of_alike h, fun o => Session.agree_of_run_eq fun s => run_eq_of_alike h o.limit⟩

/-- In `B` the branch at 6 has another target and a flag bit more, and other records stand around
it. -/
theorem branches_run_small :
    let s : Simulation := { predictor := .ofConfig .small }
    let A : List Record := [⟨6, 9, ⟨33⟩⟩, ⟨4, 0, ⟨3⟩⟩, ⟨5, 0, ⟨34⟩⟩, ⟨6, 9, ⟨1⟩⟩]
    let B : List Record := [⟨1, 2, ⟨24⟩⟩, ⟨6, 0, ⟨97⟩⟩, ⟨6, 8, ⟨1⟩⟩]
    A.filterMap Record.branch? = B.filterMap Record.branch? ∧ s.run none A = s.run none B ∧
      (Session.run { tracePath := "a" } (.ok (recordsToBytes A)) none).results
        = (Session.run { tracePath := "a" } (.ok (recordsToBytes B)) none).results ∧
      s.run (some 2) A = s.run none [⟨6, 9, ⟨33⟩⟩, ⟨4, 0, ⟨3⟩⟩] := by
  intro s A B
  have hsame : A.filterMap Record.branch? = B.filterMap Record.branch? := by decide
  obtain ⟨hbranches, -, hlimit⟩ := branches_run s A B
  obtain ⟨hrun, hagree⟩ := hbranches hsame
  obtain ⟨_, _, _, ha, hb⟩ := hagree { tracePath := "a" } rfl none (recordsToBytes A)
    (recordsToBytes B) (by decide) (by decide)
  exact ⟨hsame, hrun, by rw [ha, hb], hlimit 2⟩

end Simulation

end BranchPrediction
