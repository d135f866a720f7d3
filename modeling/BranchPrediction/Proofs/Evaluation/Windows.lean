import Mathlib.Data.Finset.Card
import BranchPrediction.Proofs.Evaluation.Trials

/-!
# What is counted over all branches

The accuracy after a sequence of trials, in terms of the trials. The trial that makes the total a
multiple of the size of a window closes the window, so that each closed window is a slice of the
trials and the open one is the rest (`Reflects.update`). The tallies by address are summed over an
ordered list, of which one trial changes one element (`sum_alterBranch`). Main statement:
`counts_ofTrials`.
-/

namespace BranchPrediction

/-- The wrong predictions in window `i`. -/
def missesIn (ts : List Trial) (i : Nat) : Nat :=
  ((ts.drop (windowSize * i)).take windowSize).countP Trial.isMiss

def missesPerFull (ts : List Trial) : List Nat :=
  (List.range (ts.length / windowSize)).map (missesIn ts)

/-- The wrong predictions since the last full window. -/
def missesSince (ts : List Trial) : Nat :=
  (ts.drop (windowSize * (ts.length / windowSize))).countP Trial.isMiss

theorem Trial.countP_isHit_add_isMiss (ts : List Trial) :
    ts.countP isHit + ts.countP isMiss = ts.length := by
  rw [List.length_eq_countP_add_countP isHit]
  congr 1
  refine List.countP_congr fun t _ => ?_
  simp [isHit, isMiss]

theorem sum_missesIn (ts : List Trial) (n : Nat) : ((List.range n).map (missesIn ts)).sum
    = (ts.take (windowSize * n)).countP Trial.isMiss := by
  induction n with
  | zero => rfl
  | succ n ih =>
    rw [List.range_succ, List.map_append, List.sum_append, ih, Nat.mul_succ, List.take_add,
      List.countP_append]
    rfl

section
variable {ts : List Trial} {t : Trial}

theorem missesIn_concat {i : Nat} (h : i < ts.length / windowSize) :
    missesIn (ts ++ [t]) i = missesIn ts i := by
  unfold windowSize at h
  have hdrop : windowSize * i ≤ ts.length := by
    unfold windowSize
    omega
  have htake : windowSize ≤ (ts.drop (windowSize * i)).length := by
    rw [List.length_drop]
    unfold windowSize
    omega
  rw [missesIn, List.drop_append_of_le_length hdrop, List.take_append_of_le_length htake]
  rfl

theorem countP_isMiss_open : ((ts ++ [t]).drop (windowSize * (ts.length / windowSize))).countP
    Trial.isMiss = missesSince ts + if t.isMiss then 1 else 0 := by
  rw [List.drop_append_of_le_length (Nat.mul_div_le ..), List.countP_append, List.countP_singleton]
  rfl

theorem div_windowSize_of_full (h : windowSize ∣ ts.length + 1) :
    (ts ++ [t]).length / windowSize = ts.length / windowSize + 1 := by
  rw [List.length_append, List.length_singleton, Nat.succ_div_of_dvd h]

theorem div_windowSize_of_not_full (h : ¬ windowSize ∣ ts.length + 1) :
    (ts ++ [t]).length / windowSize = ts.length / windowSize := by
  rw [List.length_append, List.length_singleton, Nat.succ_div_of_not_dvd h]

theorem length_of_full (h : windowSize ∣ ts.length + 1) :
    (ts ++ [t]).length = windowSize * (ts.length / windowSize + 1) := by
  rw [← div_windowSize_of_full (t := t) h, List.length_append, List.length_singleton,
    Nat.mul_div_cancel' h]

theorem missesPerFull_concat_of_full (h : windowSize ∣ ts.length + 1) : missesPerFull (ts ++ [t])
    = missesPerFull ts ++ [missesSince ts + if t.isMiss then 1 else 0] := by
  have hclosed : (List.range (ts.length / windowSize)).map (missesIn (ts ++ [t]))
      = missesPerFull ts :=
    List.map_congr_left fun i hi => missesIn_concat (List.mem_range.1 hi)
  have hlast : missesIn (ts ++ [t]) (ts.length / windowSize)
      = missesSince ts + if t.isMiss then 1 else 0 := by
    rw [missesIn, List.take_of_length_le, countP_isMiss_open]
    rw [List.length_drop, length_of_full h, Nat.mul_succ, Nat.add_sub_cancel_left]
  rw [missesPerFull, div_windowSize_of_full h, List.range_succ, List.map_append, hclosed,
    List.map_singleton, hlast]

theorem missesPerFull_concat_of_not_full (h : ¬ windowSize ∣ ts.length + 1) :
    missesPerFull (ts ++ [t]) = missesPerFull ts := by
  rw [missesPerFull, div_windowSize_of_not_full h]
  exact List.map_congr_left fun i hi => missesIn_concat (List.mem_range.1 hi)

theorem missesSince_concat_of_full (h : windowSize ∣ ts.length + 1) :
    missesSince (ts ++ [t]) = 0 := by
  rw [missesSince, div_windowSize_of_full h, ← length_of_full (t := t) h, List.drop_length]
  rfl

theorem missesSince_concat_of_not_full (h : ¬ windowSize ∣ ts.length + 1) :
    missesSince (ts ++ [t]) = missesSince ts + if t.isMiss then 1 else 0 := by
  rw [missesSince, div_windowSize_of_not_full h, countP_isMiss_open]

end

/-! ## The counts over all branches -/

namespace Accuracy

/-- The counts that are not kept by address are what the trials say. -/
structure Reflects (a : Accuracy) (ts : List Trial) : Prop where
  total : a.total = ts.length
  hits : a.hits = ts.countP Trial.isHit
  windows : a.windows = (missesPerFull ts).toArray
  windowMisses : a.windowMisses = missesSince ts

variable {a : Accuracy} {ts : List Trial}

theorem reflects_empty : Reflects {} [] :=
  ⟨rfl, rfl, rfl, rfl⟩

/-- A trial is counted in the open window, and the one that fills the window closes it. -/
theorem Reflects.update (h : a.Reflects ts) (t : Trial) :
    (a.update t.record t.predicted).Reflects (ts ++ [t]) := by
  have hopen : a.windowMisses + (if t.predicted == t.record.outcome then 0 else 1)
      = missesSince ts + if t.isMiss then 1 else 0 := by
    rw [h.windowMisses]
    show _ = _ + if !(t.predicted == t.record.outcome) then 1 else 0
    cases t.predicted == t.record.outcome <;> rfl
  have hfull : (a.total + 1) % windowSize == 0 ↔ windowSize ∣ ts.length + 1 := by
    rw [h.total, beq_iff_eq, Nat.dvd_iff_mod_eq_zero]
  constructor
  case total =>
    rw [List.length_append, ← h.total]
    rfl
  case hits =>
    rw [List.countP_append, List.countP_singleton, ← h.hits]
    rfl
  case windows =>
    show (if (a.total + 1) % windowSize == 0 then a.windows.push (a.windowMisses + _) else _) = _
    rw [hopen, h.windows]
    split
    · next hmod => rw [missesPerFull_concat_of_full (hfull.1 hmod), List.push_toArray]
    · next hmod => rw [missesPerFull_concat_of_not_full (mt hfull.2 hmod)]
  case windowMisses =>
    show (if (a.total + 1) % windowSize == 0 then 0 else a.windowMisses + _) = _
    rw [hopen]
    split
    · next hmod => rw [missesSince_concat_of_full (hfull.1 hmod)]
    · next hmod => rw [missesSince_concat_of_not_full (mt hfull.2 hmod)]

theorem reflects_ofTrials (ts : List Trial) : (ofTrials ts).Reflects ts := by
  induction ts using List.reverseRecOn with
  | nil => exact reflects_empty
  | append_singleton ts t ih =>
    rw [ofTrials_concat]
    exact ih.update t

end Accuracy

/-! ## The counts by address -/

section
variable {pc : UInt64} {f : BranchTally → BranchTally} {l : List (UInt64 × BranchTally)}

theorem sum_alterBranch {g : BranchTally → Nat} {d : Nat} (h0 : g {} = 0)
    (hf : ∀ b, g (f b) = g b + d) :
    ((alterBranch pc f l).map fun e => g e.2).sum = (l.map fun e => g e.2).sum + d := by
  induction l with
  | nil => simp [alterBranch, hf, h0]
  | cons e rest ih =>
    obtain ⟨k, b⟩ := e
    rw [alterBranch]
    split
    · simp only [List.map_cons, List.sum_cons, hf]
      omega
    · split
      · simp only [List.map_cons, List.sum_cons, hf, h0]
        omega
      · simp only [List.map_cons, List.sum_cons, ih]
        omega

theorem forall_mem_alterBranch {P : BranchTally → Prop} (h0 : P {}) (hf : ∀ b, P b → P (f b))
    (h : ∀ e ∈ l, P e.2) : ∀ e ∈ alterBranch pc f l, P e.2 := by
  induction l with
  | nil => simpa [alterBranch] using hf _ h0
  | cons e rest ih =>
    obtain ⟨k, b⟩ := e
    rw [List.forall_mem_cons] at h
    rw [alterBranch]
    split
    · exact List.forall_mem_cons.2 ⟨hf b h.1, h.2⟩
    · split
      · exact List.forall_mem_cons.2 ⟨hf _ h0, List.forall_mem_cons.2 h⟩
      · exact List.forall_mem_cons.2 ⟨h.1, ih h.2⟩

end

namespace Accuracy

variable (ts : List Trial)

theorem sum_occurrences_ofTrials :
    ((ofTrials ts).branches.map fun e => e.2.occurrences).sum = ts.length := by
  induction ts using List.reverseRecOn with
  | nil => rfl
  | append_singleton ts t ih =>
    rw [ofTrials_concat, List.length_append, ← ih]
    exact sum_alterBranch rfl fun _ => rfl

theorem sum_hits_ofTrials :
    ((ofTrials ts).branches.map fun e => e.2.hits).sum = (ofTrials ts).hits := by
  induction ts using List.reverseRecOn with
  | nil => rfl
  | append_singleton ts t ih =>
    rw [ofTrials_concat]
    show _ = (ofTrials ts).hits + _
    rw [← ih]
    exact sum_alterBranch rfl fun _ => rfl

theorem hits_le_occurrences_ofTrials :
    ∀ e ∈ (ofTrials ts).branches, e.2.hits ≤ e.2.occurrences := by
  induction ts using List.reverseRecOn with
  | nil => simp [ofTrials]
  | append_singleton ts t ih =>
    rw [ofTrials_concat]
    refine forall_mem_alterBranch (P := fun b => b.hits ≤ b.occurrences) (Nat.le_refl 0)
      (fun b hb => ?_) ih
    show b.hits + (if _ then 1 else 0) ≤ b.occurrences + 1
    split <;> omega

theorem mem_keys_ofTrials {k : UInt64} :
    k ∈ (ofTrials ts).branches.map Prod.fst ↔ k ∈ ts.map Trial.pc := by
  induction ts using List.reverseRecOn with
  | nil => rfl
  | append_singleton ts t ih =>
    rw [ofTrials_concat]
    show k ∈ (alterBranch t.pc _ (ofTrials ts).branches).map Prod.fst ↔ _
    rw [mem_keys_alterBranch, ih, List.map_append, List.mem_append, List.map_singleton,
      List.mem_singleton, or_comm]

theorem uniqueBranches_ofTrials :
    (ofTrials ts).uniqueBranches = (ts.map Trial.pc).toFinset.card := by
  have hnodup : ((ofTrials ts).branches.map Prod.fst).Nodup :=
    (increasing_ofTrials ts).imp UInt64.ne_of_lt
  have hkeys : (ts.map Trial.pc).toFinset = ((ofTrials ts).branches.map Prod.fst).toFinset := by
    ext k
    rw [List.mem_toFinset, List.mem_toFinset, mem_keys_ofTrials]
  rw [hkeys, List.toFinset_card_of_nodup hnodup, List.length_map]
  rfl

/-- After a sequence of trials, the total and the misses are those of the trials, each full window
holds the misses of its thousand trials and the open one those of the rest, and the tallies by
address, of which there is one for each address, add up to the counts over all branches. -/
theorem counts_ofTrials (ts : List Trial) : let a := ofTrials ts
    a.total = ts.length ∧ a.hits ≤ a.total ∧ a.misses = ts.countP Trial.isMiss ∧
    a.windows.size = ts.length / 1000 ∧
    (∀ i < ts.length / 1000,
      a.windows[i]? = some (((ts.drop (1000 * i)).take 1000).countP Trial.isMiss)) ∧
    a.windows.sum = (ts.take (1000 * (ts.length / 1000))).countP Trial.isMiss ∧
    a.windowMisses = (ts.drop (1000 * (ts.length / 1000))).countP Trial.isMiss ∧
    (a.branches.map fun e => e.2.occurrences).sum = ts.length ∧
    (a.branches.map fun e => e.2.hits).sum = a.hits ∧
    (∀ e ∈ a.branches, e.2.hits ≤ e.2.occurrences) ∧
    a.uniqueBranches = (ts.map Trial.pc).toFinset.card := by
  intro a
  have h : a.Reflects ts := reflects_ofTrials ts
  have hsplit := Trial.countP_isHit_add_isMiss ts
  refine ⟨h.total, ?_, ?_, ?_, fun i hi => ?_, ?_, h.windowMisses, sum_occurrences_ofTrials ts,
    sum_hits_ofTrials ts, hits_le_occurrences_ofTrials ts, uniqueBranches_ofTrials ts⟩
  · rw [h.total, h.hits]
    exact List.countP_le_length
  · rw [misses, h.total, h.hits]
    omega
  · rw [h.windows, List.size_toArray, missesPerFull, List.length_map, List.length_range]
    rfl
  · rw [h.windows, List.getElem?_toArray, missesPerFull, List.getElem?_map,
      show (List.range (ts.length / windowSize))[i]? = some i from List.getElem?_range hi]
    rfl
  · rw [h.windows, List.sum_toArray, missesPerFull, sum_missesIn]
    rfl

/-- The first branch is never predicted, and fills a window. Another one is, in the next window. -/
theorem counts_ofTrials_small :
    let ts : List Trial := List.replicate 1000 ⟨⟨6, 0, ⟨33⟩⟩, .notTaken⟩ ++
      [⟨⟨9, 0, ⟨33⟩⟩, .taken⟩]
    (ofTrials ts).windows[0]? = some 1000 ∧
      ∃ b, (9, b) ∈ (ofTrials ts).branches ∧ b.hits ≤ b.occurrences := by
  intro ts
  obtain ⟨-, -, -, -, hwindow, -, -, -, -, hle, -⟩ := counts_ofTrials ts
  have hlength : ts.length = 1001 := by
    rw [List.length_append, List.length_replicate]
    rfl
  have hmem : (9 : UInt64) ∈ (ofTrials ts).branches.map Prod.fst := by
    rw [mem_keys_ofTrials, List.map_append, List.mem_append]
    exact .inr (List.mem_singleton.2 rfl)
  obtain ⟨⟨-, b⟩, he, rfl⟩ := List.mem_map.1 hmem
  refine ⟨?_, b, he, hle _ he⟩
  rw [hwindow 0 (by rw [hlength]; decide), Nat.mul_zero, List.drop_zero,
    List.take_left' List.length_replicate, List.countP_replicate]
  rfl

end Accuracy

end BranchPrediction
