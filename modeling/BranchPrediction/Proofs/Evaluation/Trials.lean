import Mathlib.Data.List.Induction
import BranchPrediction.Evaluation.Accuracy

/-!
# What is counted for one branch

Each prediction that is recorded changes the tally of one address (`findBranch?_alterBranch_self`),
as the tallies are kept in increasing order of their addresses (`increasing_alterBranch`), and
leaves the others as they are (`findBranch?_alterBranch_other`). So the tally of an address is the
one that its own trials give (`find?_ofTrials_eq`), whatever other branches come in between. Main
statement: `tally_of_own_trials`.
-/

namespace BranchPrediction

structure Trial where
  record : Record
  predicted : Outcome
  deriving DecidableEq, Repr

namespace Trial

def pc (t : Trial) : UInt64 :=
  t.record.pc

def outcome (t : Trial) : Outcome :=
  t.record.outcome

def isHit (t : Trial) : Bool :=
  t.predicted == t.outcome

def isMiss (t : Trial) : Bool :=
  t.predicted != t.outcome

/-- The trials of one address. -/
def own (pc : UInt64) (ts : List Trial) : List Trial :=
  ts.filter (·.pc == pc)

theorem own_concat (pc : UInt64) (ts : List Trial) (t : Trial) :
    own pc (ts ++ [t]) = own pc ts ++ if t.pc = pc then [t] else [] := by
  unfold own
  rw [List.filter_append]
  by_cases h : t.pc = pc <;> simp [h]

theorem own_own (pc : UInt64) (ts : List Trial) : own pc (own pc ts) = own pc ts := by
  unfold own
  rw [List.filter_filter]
  simp only [Bool.and_self]

end Trial

def Accuracy.ofTrials (ts : List Trial) : Accuracy :=
  ts.foldl (fun a t => a.update t.record t.predicted) {}

theorem Accuracy.ofTrials_concat (ts : List Trial) (t : Trial) :
    ofTrials (ts ++ [t]) = (ofTrials ts).update t.record t.predicted := by
  rw [ofTrials, List.foldl_append]
  rfl

def Increasing (l : List (UInt64 × BranchTally)) : Prop :=
  (l.map Prod.fst).Pairwise (· < ·)

section
variable {pc : UInt64} {f : BranchTally → BranchTally} {l : List (UInt64 × BranchTally)}

theorem mem_keys_alterBranch {k : UInt64} :
    k ∈ (alterBranch pc f l).map Prod.fst ↔ k = pc ∨ k ∈ l.map Prod.fst := by
  induction l with
  | nil => simp [alterBranch]
  | cons e rest ih =>
    obtain ⟨k', b⟩ := e
    rw [alterBranch]
    split
    · next heq => simp [heq]
    · split
      · simp
      · rw [List.map_cons, List.mem_cons, ih, List.map_cons, List.mem_cons]
        exact or_left_comm

theorem increasing_alterBranch (h : Increasing l) : Increasing (alterBranch pc f l) := by
  induction l with
  | nil => exact List.pairwise_singleton ..
  | cons e rest ih =>
    obtain ⟨k, b⟩ := e
    obtain ⟨hk, hrest⟩ := List.pairwise_cons.1 h
    rw [alterBranch]
    split
    · exact h
    · next hne =>
      split
      · next hlt =>
        refine List.pairwise_cons.2 ⟨fun k' hk' => ?_, h⟩
        rcases List.mem_cons.1 hk' with rfl | hk'
        · exact hlt
        · exact UInt64.lt_trans hlt (hk k' hk')
      · next hle =>
        refine List.pairwise_cons.2 ⟨fun k' hk' => ?_, ih hrest⟩
        rcases mem_keys_alterBranch.1 hk' with rfl | hk'
        · exact UInt64.lt_of_le_of_ne (UInt64.not_lt.1 hle) hne
        · exact hk k' hk'

theorem findBranch?_eq_none_iff : findBranch? pc l = none ↔ pc ∉ l.map Prod.fst := by
  induction l with
  | nil => simp [findBranch?]
  | cons e rest ih =>
    obtain ⟨k, b⟩ := e
    rw [findBranch?]
    split
    · next heq => simp [heq]
    · next hne => simp [ih, Ne.symm hne]

theorem findBranch?_alterBranch_self (h : Increasing l) :
    findBranch? pc (alterBranch pc f l) = some (f ((findBranch? pc l).getD {})) := by
  induction l with
  | nil => simp [alterBranch, findBranch?]
  | cons e rest ih =>
    obtain ⟨k, b⟩ := e
    obtain ⟨hk, hrest⟩ := List.pairwise_cons.1 h
    rw [alterBranch]
    split
    · next heq => simp [findBranch?, heq]
    · next hne =>
      split
      · next hlt =>
        have habsent : findBranch? pc rest = none :=
          findBranch?_eq_none_iff.2 fun hmem => UInt64.lt_asymm hlt (hk pc hmem)
        simp [findBranch?, hne, habsent]
      · simp [findBranch?, hne, ih hrest]

theorem findBranch?_alterBranch_other {k : UInt64} (hne : pc ≠ k) :
    findBranch? k (alterBranch pc f l) = findBranch? k l := by
  induction l with
  | nil => simp [alterBranch, findBranch?, hne]
  | cons e rest ih =>
    obtain ⟨k', b⟩ := e
    rw [alterBranch]
    split
    · next heq => simp [findBranch?, heq, hne]
    · split
      · simp [findBranch?, hne]
      · rw [findBranch?, findBranch?, ih]

end

/-! ## The tally of one address -/

namespace BranchTally

def ofTrials (ts : List Trial) : BranchTally where
  occurrences := ts.length
  hits := ts.countP Trial.isHit
  outcomes := (ts.map Trial.outcome).toArray

theorem ofTrials_concat (ts : List Trial) (t : Trial) :
    ofTrials (ts ++ [t]) = (ofTrials ts).record t.outcome t.isHit := by
  simp [ofTrials, record, List.countP_append, List.countP_singleton]

theorem timesTaken_ofTrials (ts : List Trial) :
    (ofTrials ts).timesTaken = ts.countP (·.outcome == .taken) := by
  rw [timesTaken, ofTrials, List.count_toArray, List.count, List.countP_map]
  rfl

theorem listOfString_pattern (b : BranchTally) (n : Nat) :
    Outcome.listOfString (b.pattern n) = b.outcomes.toList.take n :=
  Outcome.listOfString_listToString _

end BranchTally

namespace Accuracy

theorem increasing_ofTrials (ts : List Trial) : Increasing (ofTrials ts).branches := by
  induction ts using List.reverseRecOn with
  | nil => exact .nil
  | append_singleton ts t ih =>
    rw [ofTrials_concat]
    exact increasing_alterBranch ih

theorem find?_ofTrials_eq (ts : List Trial) (pc : UInt64) : (ofTrials ts).find? pc =
    if Trial.own pc ts = [] then none else some (.ofTrials (Trial.own pc ts)) := by
  induction ts using List.reverseRecOn with
  | nil => rfl
  | append_singleton ts t ih =>
    have hfind : (ofTrials (ts ++ [t])).find? pc = findBranch? pc
        (alterBranch t.pc (·.record t.outcome t.isHit) (ofTrials ts).branches) := by
      rw [ofTrials_concat]
      rfl
    rw [hfind, Trial.own_concat]
    by_cases hpc : t.pc = pc
    · subst hpc
      -- before its first trial, an address has the tally of no trials
      have hbefore : (findBranch? t.pc (ofTrials ts).branches).getD {}
          = .ofTrials (Trial.own t.pc ts) := by
        rw [show findBranch? t.pc (ofTrials ts).branches = _ from ih]
        split
        · next hnil => rw [hnil]; rfl
        · rfl
      rw [findBranch?_alterBranch_self (increasing_ofTrials ts), hbefore, if_pos rfl,
        BranchTally.ofTrials_concat, if_neg (List.concat_ne_nil _ _)]
    · rw [findBranch?_alterBranch_other hpc, if_neg hpc, List.append_nil]
      exact ih

/-- What is counted for an address depends on its own trials alone. It is nothing without any, and
with the same ones, in whatever other trials they are mixed, it is the same. The tally counts them,
and its pattern reads back as their first outcomes. -/
theorem tally_of_own_trials (ts : List Trial) (pc : UInt64) :
    let own := Trial.own pc ts
    let found := (ofTrials ts).find? pc
    found = (ofTrials own).find? pc ∧ (found = none ↔ own = []) ∧
      (∀ us, Trial.own pc us = own → (ofTrials us).find? pc = found) ∧
      ∀ b, found = some b →
        b.occurrences = own.length ∧ b.hits = own.countP Trial.isHit ∧
        b.timesTaken = own.countP (·.outcome == .taken) ∧
        ∀ n, Outcome.listOfString (b.pattern n)
          = (own.map Trial.outcome).take (min n b.occurrences) := by
  intro own found
  have hfound : found = if own = [] then none else some (.ofTrials own) := find?_ofTrials_eq ts pc
  refine ⟨?_, ?_, fun us hus => ?_, fun b hb => ?_⟩
  · rw [hfound, find?_ofTrials_eq, Trial.own_own]
  · rw [hfound]
    split <;> simp_all
  · rw [hfound, find?_ofTrials_eq, hus]
  · rw [hfound] at hb
    split at hb
    · cases hb
    · obtain rfl := Option.some.inj hb
      refine ⟨rfl, rfl, BranchTally.timesTaken_ofTrials own, fun n => ?_⟩
      rw [BranchTally.listOfString_pattern]
      show (own.map Trial.outcome).take n = (own.map Trial.outcome).take (min n own.length)
      rw [List.take_eq_take_min, List.length_map]

/-- Three trials of one branch, around one of another. The pattern is asked for more outcomes than
there are. -/
theorem tally_of_own_trials_small :
    let ts : List Trial := [⟨⟨6, 9, ⟨33⟩⟩, .taken⟩, ⟨⟨4, 0, ⟨1⟩⟩, .taken⟩, ⟨⟨6, 0, ⟨1⟩⟩, .taken⟩,
      ⟨⟨6, 9, ⟨33⟩⟩, .notTaken⟩]
    let us : List Trial := Trial.own 6 ts ++ [⟨⟨7, 1, ⟨33⟩⟩, .taken⟩]
    (ofTrials us).find? 6 = (ofTrials ts).find? 6 ∧ (ofTrials ts).find? 7 = none ∧
      ∃ b, (ofTrials ts).find? 6 = some b ∧ b.occurrences = 3 ∧ b.hits = 1 ∧ b.timesTaken = 2 ∧
        Outcome.listOfString (b.pattern 8) = [.taken, .notTaken, .taken] := by
  intro ts us
  obtain ⟨-, hsome, hmixed, htally⟩ := tally_of_own_trials ts 6
  obtain ⟨-, hnone, -⟩ := tally_of_own_trials ts 7
  cases hfound : (ofTrials ts).find? 6 with
  | none => exact absurd (hsome.1 hfound) (by decide)
  | some b =>
    obtain ⟨hoccurrences, hhits, htaken, hpattern⟩ := htally b hfound
    have hlength := hoccurrences.trans (by decide : _ = 3)
    refine ⟨(hmixed us (by decide)).trans hfound, hnone.2 (by decide), b, rfl, hlength,
      hhits.trans (by decide), htaken.trans (by decide), ?_⟩
    rw [hpattern 8, hlength]
    decide

end Accuracy

end BranchPrediction
