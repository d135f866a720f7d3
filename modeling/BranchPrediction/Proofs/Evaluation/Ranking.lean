import Mathlib.Data.Prod.Lex
import Mathlib.Data.Set.Card
import BranchPrediction.Proofs.Evaluation.Trials
import BranchPrediction.Proofs.Sorting

/-!
# The ranking of badly predicted branches

Branches are ranked by how often they were seen, and equally frequent ones by address. `worst` sorts
by frequency alone, over branches in order of address, and turns the result around; as the sort is
stable, that is the ranking from the top (`ranking_decreasing`). `TopOf` says what the first `n` of
a ranking are, without a sort. Main statement: `worst_topOf`.
-/

namespace BranchPrediction

def rank (e : UInt64 × BranchTally) : Nat ×ₗ UInt64 :=
  toLex (e.2.occurrences, e.1)

theorem rank_lt_rank {d e : UInt64 × BranchTally} : rank d < rank e ↔
    d.2.occurrences < e.2.occurrences ∨ d.2.occurrences = e.2.occurrences ∧ d.1 < e.1 :=
  Prod.Lex.toLex_lt_toLex

/-- A list of the `n` highest ranks in a set of branches, or of all if there are fewer, the highest
one first. -/
structure TopOf (among : Set (UInt64 × BranchTally)) (n : Nat)
    (top : List (UInt64 × BranchTally)) : Prop where
  length_eq : top.length = min n among.ncard
  subset : ∀ e ∈ top, e ∈ among
  distinct : (top.map Prod.fst).Nodup
  decreasing : top.Pairwise fun d e => rank e < rank d
  left_out : ∀ d ∈ among, d ∉ top → ∀ e ∈ top, rank d < rank e

theorem findBranch?_eq_some_iff {pc : UInt64} {b : BranchTally} {l : List (UInt64 × BranchTally)}
    (h : Increasing l) : findBranch? pc l = some b ↔ (pc, b) ∈ l := by
  induction l with
  | nil => simp [findBranch?]
  | cons e rest ih =>
    obtain ⟨k, c⟩ := e
    obtain ⟨hk, hrest⟩ := List.pairwise_cons.1 h
    rw [findBranch?, List.mem_cons]
    split
    · next heq =>
      subst heq
      -- the address does not come again
      have hnot : (k, b) ∉ rest := fun hmem =>
        UInt64.lt_irrefl k (hk k (List.mem_map_of_mem hmem))
      simp [hnot, eq_comm]
    · next hne => simp [ih hrest, Ne.symm hne]

namespace Accuracy

variable {a : Accuracy} {minOccurrences : Nat} {maxRate : Float}

/-- The branches that were seen often enough and predicted badly enough. -/
def qualifying (a : Accuracy) (minOccurrences : Nat) (maxRate : Float) :
    Set (UInt64 × BranchTally) :=
  {e | a.find? e.1 = some e.2 ∧ minOccurrences ≤ e.2.occurrences ∧ e.2.hitRate ≤ maxRate}

def ranking (a : Accuracy) (minOccurrences : Nat) (maxRate : Float) :
    List (UInt64 × BranchTally) :=
  ((a.branches.filter fun e => qualifies minOccurrences maxRate e.2).mergeSort
    fun d e => d.2.occurrences ≤ e.2.occurrences).reverse

theorem worst_eq_take (a : Accuracy) (n minOccurrences : Nat) (maxRate : Float) :
    a.worst n minOccurrences maxRate = (a.ranking minOccurrences maxRate).take n := rfl

theorem ranking_perm (a : Accuracy) (minOccurrences : Nat) (maxRate : Float) :
    (a.ranking minOccurrences maxRate).Perm
      (a.branches.filter fun e => qualifies minOccurrences maxRate e.2) :=
  (List.reverse_perm _).trans (List.mergeSort_perm _ _)

theorem mem_ranking (h : Increasing a.branches) {e : UInt64 × BranchTally} :
    e ∈ a.ranking minOccurrences maxRate ↔ e ∈ a.qualifying minOccurrences maxRate := by
  rw [(a.ranking_perm _ _).mem_iff, List.mem_filter, ← findBranch?_eq_some_iff h]
  simp [qualifying, qualifies, find?]

/-- Reversing puts the higher address first among equally frequent branches. -/
theorem ranking_decreasing (h : Increasing a.branches) (minOccurrences : Nat) (maxRate : Float) :
    (a.ranking minOccurrences maxRate).Pairwise fun d e => rank e < rank d := by
  have haddresses : (a.branches.filter fun e => qualifies minOccurrences maxRate e.2).Pairwise
      fun d e => d.1 < e.1 :=
    (List.pairwise_map.1 h).sublist List.filter_sublist
  have hties := pairwise_mergeSort_ties (fun e => e.2.occurrences) _ haddresses
  rw [ranking, List.pairwise_reverse]
  exact hties.imp rank_lt_rank.2

theorem nodup_map_fst_ranking (h : Increasing a.branches) :
    ((a.ranking minOccurrences maxRate).map Prod.fst).Nodup := by
  have haddresses : (a.branches.map Prod.fst).Nodup := h.imp UInt64.ne_of_lt
  exact (((a.ranking_perm _ _).map Prod.fst).nodup_iff).2
    (haddresses.sublist (List.filter_sublist.map Prod.fst))

theorem ncard_qualifying (h : Increasing a.branches) :
    (a.qualifying minOccurrences maxRate).ncard = (a.ranking minOccurrences maxRate).length := by
  have hset : a.qualifying minOccurrences maxRate
      = (a.ranking minOccurrences maxRate).toFinset := by
    ext e
    rw [Finset.mem_coe, List.mem_toFinset, mem_ranking h]
  rw [hset, Set.ncard_coe_finset,
    List.toFinset_card_of_nodup (nodup_map_fst_ranking h).of_map]

/-- Whatever the tallies hold, as long as they are in the order of address that every update keeps,
the worst branches are the top of the ranking of the branches that qualify, and a larger limit only
lets more branches follow. -/
theorem worst_topOf (h : Increasing a.branches) (minOccurrences : Nat) (maxRate : Float) (n : Nat) :
    TopOf (a.qualifying minOccurrences maxRate) n (a.worst n minOccurrences maxRate) ∧
      ∀ m, n ≤ m → a.worst n minOccurrences maxRate <+: a.worst m minOccurrences maxRate := by
  simp only [worst_eq_take]
  have hdecreasing := ranking_decreasing h minOccurrences maxRate
  have hsub := List.take_sublist n (a.ranking minOccurrences maxRate)
  refine ⟨⟨?_, fun e he => ?_, ?_, ?_, fun d hd hnot e he => ?_⟩, fun m hm => ?_⟩
  · rw [ncard_qualifying h, List.length_take]
  · exact (mem_ranking h).1 (hsub.mem he)
  · exact (nodup_map_fst_ranking h).sublist (hsub.map Prod.fst)
  · exact hdecreasing.sublist hsub
  · have hdropped : d ∈ (a.ranking minOccurrences maxRate).drop n := by
      have hd := (mem_ranking h).2 hd
      rw [← List.take_append_drop n (a.ranking minOccurrences maxRate), List.mem_append] at hd
      exact hd.resolve_left hnot
    exact hdecreasing.rel_of_mem_take_of_mem_drop he hdropped
  · exact List.take_prefix_take_left hm

/-- Two branches were seen twice and predicted right once. The one at the lower address is left out
when there is room for one. A third branch is predicted too well, and a fourth was seen too
rarely. -/
theorem worst_topOf_small :
    let seen (pc : UInt64) (predicted : Outcome) : Trial := ⟨⟨pc, 0, ⟨33⟩⟩, predicted⟩
    let a := ofTrials [seen 6 .taken, seen 9 .taken, seen 4 .notTaken, seen 4 .taken,
      seen 6 .notTaken, seen 9 .taken, seen 5 .notTaken]
    let b : BranchTally := ⟨2, 1, #[.taken, .taken]⟩
    Increasing a.branches ∧ (4, b) ∈ a.qualifying 2 0.5 ∧ (6, b) ∈ a.qualifying 2 0.5 ∧
      TopOf (a.qualifying 2 0.5) 1 (a.worst 1 2 0.5) ∧ (4, b) ∉ a.worst 1 2 0.5 ∧
      a.worst 1 2 0.5 <+: a.worst 2 2 0.5 := by
  intro seen a b
  have h : Increasing a.branches := increasing_ofTrials _
  have hfour : (4, b) ∈ a.qualifying 2 0.5 := ⟨by decide, by decide, by decide⟩
  have hsix : (6, b) ∈ a.qualifying 2 0.5 := ⟨by decide, by decide, by decide⟩
  obtain ⟨htop, hmore⟩ := worst_topOf h 2 0.5 1
  refine ⟨h, hfour, hsix, htop, fun hmem => ?_, hmore 2 (by decide)⟩
  -- there is no room for the other one then, though it ranks higher
  have hnot : (6, b) ∉ a.worst 1 2 0.5 := by
    intro hmem'
    have hone : (a.worst 1 2 0.5).length ≤ 1 := htop.length_eq ▸ Nat.min_le_left 1 _
    obtain ⟨i, hi, hfirst⟩ := List.getElem_of_mem hmem
    obtain ⟨j, hj, hsecond⟩ := List.getElem_of_mem hmem'
    obtain rfl : i = j := by omega
    exact absurd (hfirst.symm.trans hsecond) (by decide)
  have hrank := htop.left_out _ hsix hnot _ hmem
  exact absurd (rank_lt_rank.1 hrank) (by decide)

end Accuracy

end BranchPrediction
