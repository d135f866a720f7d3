/-!
# Sorting by a number

Tables are sorted by the length of their histories, and branches by how often they were seen. Both
sorts are stable: the elements with one number keep the order that they had
(`filter_mergeSort_key`). So a relation that every two elements were in, in their old order, breaks
the ties (`pairwise_mergeSort_ties`).
-/

namespace BranchPrediction

section
variable {α : Type} (key : α → Nat) (l : List α)

theorem key_le_trans (a b c : α) (hab : decide (key a ≤ key b) = true)
    (hbc : decide (key b ≤ key c) = true) : decide (key a ≤ key c) = true :=
  decide_eq_true (Nat.le_trans (of_decide_eq_true hab) (of_decide_eq_true hbc))

theorem key_le_total (a b : α) :
    (decide (key a ≤ key b) || decide (key b ≤ key a)) = true := by
  simpa using Nat.le_total (key a) (key b)

theorem pairwise_mergeSort_key :
    (l.mergeSort fun a b => key a ≤ key b).Pairwise fun a b => key a ≤ key b := by
  simpa using List.pairwise_mergeSort (key_le_trans key) (key_le_total key) l

/-- The elements with one number keep their order. -/
theorem filter_mergeSort_key (n : Nat) :
    (l.mergeSort fun a b => key a ≤ key b).filter (key · == n) = l.filter (key · == n) := by
  -- they are sorted already, so the sort has them all in the order in which `l` has them
  have htied : (l.filter (key · == n)).Pairwise fun a b => decide (key a ≤ key b) = true := by
    refine List.pairwise_of_forall_mem_list fun a ha b hb => ?_
    have hna : key a = n := by simpa using (List.mem_filter.1 ha).2
    have hnb : key b = n := by simpa using (List.mem_filter.1 hb).2
    simp [hna, hnb]
  have hkept : (l.filter (key · == n)).Sublist (l.mergeSort fun a b => key a ≤ key b) :=
    List.sublist_mergeSort (key_le_trans key) (key_le_total key) htied List.filter_sublist
  have hsub := hkept.filter (key · == n)
  rw [List.filter_filter] at hsub
  simp only [Bool.and_self] at hsub
  exact (hsub.eq_of_length ((List.mergeSort_perm l _).filter _).length_eq.symm).symm

theorem pairwise_mergeSort_ties {r : α → α → Prop} (h : l.Pairwise r) :
    (l.mergeSort fun a b => key a ≤ key b).Pairwise
      fun a b => key a < key b ∨ key a = key b ∧ r a b := by
  rw [List.pairwise_iff_forall_sublist]
  intro a b hab
  have hle : key a ≤ key b :=
    List.pairwise_iff_forall_sublist.1 (pairwise_mergeSort_key key l) hab
  rcases Nat.lt_or_eq_of_le hle with hlt | heq
  · exact .inl hlt
  · have hties := hab.filter (key · == key b)
    rw [filter_mergeSort_key, List.filter_cons_of_pos (by simp [heq]),
      List.filter_cons_of_pos (by simp), List.filter_nil] at hties
    exact .inr ⟨heq, List.pairwise_iff_forall_sublist.1 h (hties.trans List.filter_sublist)⟩

end

end BranchPrediction
