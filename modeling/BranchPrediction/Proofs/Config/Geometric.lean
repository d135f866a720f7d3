import Mathlib.Order.Bounds.Defs
import Mathlib.Order.Fin.Basic
import BranchPrediction.Config.Geometric

/-!
# What raising makes of a series

Nothing is known of the rounded terms of a geometric progression: they can stay the same, fall, or
be 0 where the progression is not a number. `raised` says what raising makes of any series: each
number is its own term, or one more than the number before it, whichever is greater. By induction
along the series this is the least strictly increasing series at or above the terms
(`raised_isLeast`), and number `i` is the greatest of the `r j + (i - j)` (`raised_isGreatest`).
Main statement: `geometricLengths_raised`.
-/

namespace BranchPrediction

def roundedTerm (least greatest count i : Nat) : Nat :=
  let first := Float.ofNat least
  let ratio := (Float.ofNat greatest / first).pow (1.0 / Float.ofNat (count - 1))
  (first * powSquaring ratio (Int32.ofNat i)).round.toUInt64.toNat

/-- The first `n` terms of a series, raised as little as makes them strictly increasing. -/
structure LeastIncreasing (r : Nat → Nat) (n : Nat) (l : List Nat) : Prop where
  length_eq : l.length = n
  increasing : l.Pairwise (· < ·)
  /-- no strictly increasing series at or above the terms is below this one anywhere -/
  isLeast : IsLeast {s : Fin n → Nat | StrictMono s ∧ ∀ i : Fin n, r i ≤ s i} fun i => l.getD i 0
  /-- a raised term pushes each of those behind it one further -/
  isGreatest : ∀ i < n, IsGreatest {m | ∃ j ≤ i, m = r j + (i - j)} (l.getD i 0)

/-- The numbers of a series, each raised above the one before it. -/
def raised (r : Nat → Nat) : Nat → Nat
  | 0 => r 0
  | i + 1 => max (r (i + 1)) (raised r i + 1)

variable {r : Nat → Nat}

theorem raiseAbove_cons (previous x : Nat) (rest : List Nat) :
    raiseAbove previous (x :: rest)
      = max x (previous + 1) :: raiseAbove (max x (previous + 1)) rest := by
  have hmax : (if x ≤ previous then previous + 1 else x) = max x (previous + 1) := by
    split <;> omega
  simp only [raiseAbove, hmax]

/-- Where number `k` is reached, raising goes on with the terms behind it. -/
theorem raiseAbove_map_range' (r : Nat → Nat) (k n : Nat) :
    raiseAbove (raised r k) ((List.range' (k + 1) n).map r)
      = (List.range' (k + 1) n).map (raised r) := by
  induction n generalizing k with
  | zero => rfl
  | succ n ih =>
    rw [List.range'_succ, List.map_cons, List.map_cons, raiseAbove_cons]
    exact congrArg (raised r (k + 1) :: ·) (ih (k + 1))

theorem raiseIncreasing_map_range (r : Nat → Nat) (n : Nat) :
    raiseIncreasing ((List.range n).map r) = (List.range n).map (raised r) := by
  cases n with
  | zero => rfl
  | succ n =>
    rw [List.range_eq_range', List.range'_succ, List.map_cons, List.map_cons, raiseIncreasing]
    exact congrArg (raised r 0 :: ·) (raiseAbove_map_range' r 0 n)

theorem strictMono_raised : StrictMono (raised r) :=
  strictMono_nat_of_lt_succ fun _ => Nat.lt_of_succ_le (Nat.le_max_right _ _)

theorem le_raised (i : Nat) : r i ≤ raised r i := by
  cases i with
  | zero => exact Nat.le_refl _
  | succ i => exact Nat.le_max_left _ _

theorem raised_le {n : Nat} {s : Fin n → Nat} (hs : StrictMono s) (hr : ∀ i : Fin n, r i ≤ s i)
    (i : Nat) (hi : i < n) : raised r i ≤ s ⟨i, hi⟩ := by
  induction i with
  | zero => exact hr ⟨0, hi⟩
  | succ i ih =>
    have hi' : i < n := Nat.lt_of_succ_lt hi
    have hstep : s ⟨i, hi'⟩ < s ⟨i + 1, hi⟩ := hs (Fin.mk_lt_mk.2 (Nat.lt_succ_self i))
    exact Nat.max_le.2 ⟨hr ⟨i + 1, hi⟩, Nat.lt_of_le_of_lt (ih hi') hstep⟩

theorem raised_isLeast (r : Nat → Nat) (n : Nat) :
    IsLeast {s : Fin n → Nat | StrictMono s ∧ ∀ i : Fin n, r i ≤ s i} fun i => raised r i := by
  refine ⟨⟨fun i j hij => strictMono_raised hij, fun i => le_raised i⟩, ?_⟩
  rintro s ⟨hs, hr⟩ i
  exact raised_le hs hr i i.isLt

theorem raised_isGreatest (r : Nat → Nat) (i : Nat) :
    IsGreatest {m | ∃ j ≤ i, m = r j + (i - j)} (raised r i) := by
  induction i with
  | zero =>
    refine ⟨⟨0, Nat.le_refl 0, rfl⟩, ?_⟩
    rintro m ⟨j, hj, rfl⟩
    obtain rfl := Nat.le_zero.1 hj
    exact Nat.le_refl _
  | succ i ih =>
    obtain ⟨⟨j, hj, hmem⟩, hbound⟩ := ih
    constructor
    · rcases Nat.le_total (raised r i + 1) (r (i + 1)) with hle | hle
      · exact ⟨i + 1, Nat.le_refl _, by rw [raised, Nat.max_eq_left hle]; omega⟩
      · exact ⟨j, Nat.le_succ_of_le hj, by rw [raised, Nat.max_eq_right hle]; omega⟩
    · rintro m ⟨k, hk, rfl⟩
      rcases Nat.lt_or_eq_of_le hk with hlt | rfl
      · have hbefore := hbound ⟨k, Nat.le_of_lt_succ hlt, rfl⟩
        rw [raised]
        omega
      · rw [raised, Nat.sub_self]
        exact Nat.le_max_left _ _

theorem leastIncreasing_raised (r : Nat → Nat) (n : Nat) :
    LeastIncreasing r n ((List.range n).map (raised r)) := by
  have hget (i : Nat) (hi : i < n) : ((List.range n).map (raised r)).getD i 0 = raised r i := by
    simp [hi]
  refine ⟨by simp, ?_, ?_, fun i hi => ?_⟩
  · rw [List.pairwise_map]
    exact List.pairwise_lt_range.imp fun hij => strictMono_raised hij
  · have hfun : (fun i : Fin n => ((List.range n).map (raised r)).getD i 0)
        = fun i : Fin n => raised r i :=
      funext fun i => hget i i.isLt
    rw [hfun]
    exact raised_isLeast r n
  · rw [hget i hi]
    exact raised_isGreatest r i

theorem geometricLengths_eq_map {least greatest count : Nat} (h : 2 ≤ count) :
    geometricLengths least greatest count
      = (List.range count).map (raised (roundedTerm least greatest count)) := by
  have hcount : ¬ count ≤ 1 := by omega
  rw [geometricLengths, if_neg hcount]
  exact raiseIncreasing_map_range _ count

theorem raiseAbove?_cons (previous x : Nat) (rest : List Nat) (hx : x < 2 ^ wordBits) :
    raiseAbove? previous (x :: rest) =
      if max x (previous + 1) < 2 ^ wordBits then
        (raiseAbove? (max x (previous + 1)) rest).map (max x (previous + 1) :: ·)
      else none := by
  rw [raiseAbove?]
  by_cases h : x ≤ previous
  · have hmax : max x (previous + 1) = previous + 1 := by omega
    rw [if_pos h, addWord?, hmax]
    split <;> rfl
  · have hmax : max x (previous + 1) = x := by omega
    rw [if_neg h, hmax, if_pos hx]
    rfl

theorem raiseAbove?_eq (previous : Nat) {l : List Nat} (hl : ∀ x ∈ l, x < 2 ^ wordBits) :
    raiseAbove? previous l =
      if ∀ y ∈ raiseAbove previous l, y < 2 ^ wordBits then some (raiseAbove previous l)
      else none := by
  induction l generalizing previous with
  | nil => rfl
  | cons x rest ih =>
    obtain ⟨hx, hrest⟩ := List.forall_mem_cons.1 hl
    rw [raiseAbove?_cons previous x rest hx, raiseAbove_cons, ih _ hrest]
    simp only [List.forall_mem_cons]
    by_cases hy : max x (previous + 1) < 2 ^ wordBits
    · simp only [hy, if_true, true_and]
      split <;> rfl
    · simp only [hy, if_false, false_and]

theorem raiseIncreasing?_eq {l : List Nat} (hl : ∀ x ∈ l, x < 2 ^ wordBits) :
    raiseIncreasing? l =
      if ∀ y ∈ raiseIncreasing l, y < 2 ^ wordBits then some (raiseIncreasing l) else none := by
  cases l with
  | nil => rfl
  | cons x rest =>
    obtain ⟨hx, hrest⟩ := List.forall_mem_cons.1 hl
    rw [raiseIncreasing?, raiseIncreasing, raiseAbove?_eq x hrest]
    simp only [List.forall_mem_cons, hx, true_and]
    split <;> rfl

theorem geometricLengths?_eq_some_iff {least greatest count : Nat} (h : 2 ≤ count)
    (lengths : List Nat) : geometricLengths? least greatest count = some lengths ↔
      lengths = geometricLengths least greatest count ∧ fitsTable count 8 = true ∧
        ∀ n ∈ lengths, n < 2 ^ wordBits := by
  have hcount : ¬ count ≤ 1 := by omega
  have hwords : ∀ x ∈ roundedProgression least greatest count, x < 2 ^ wordBits := by
    intro x hx
    obtain ⟨i, -, rfl⟩ := List.mem_map.1 hx
    exact UInt64.toNat_lt _
  unfold geometricLengths? geometricLengths
  rw [if_neg hcount, if_neg hcount, raiseIncreasing?_eq hwords]
  constructor
  · intro hsome
    split at hsome
    · next hfits =>
      split at hsome
      · next hall =>
        obtain rfl := Option.some.inj hsome
        exact ⟨rfl, hfits, hall⟩
      · cases hsome
    · cases hsome
  · rintro ⟨rfl, hfits, hall⟩
    rw [if_pos hfits, if_pos hall]

/-- Whatever the terms are rounded to, there are as many lengths as are asked for. They are strictly
increasing, the least such series at or above the rounded terms, and length `i` is the greatest of
the `r j + (i - j)` up to `i`, where `r j` is term `j`. The checks let the lengths through exactly
if there is room for so many and no raise leaves the range of words. -/
theorem geometricLengths_raised (least greatest : Nat) {count : Nat} (h : 2 ≤ count) :
    LeastIncreasing (roundedTerm least greatest count) count
        (geometricLengths least greatest count) ∧
      ∀ lengths, geometricLengths? least greatest count = some lengths ↔
        lengths = geometricLengths least greatest count ∧ fitsTable count 8 = true ∧
          ∀ n ∈ lengths, n < 2 ^ wordBits := by
  constructor
  · rw [geometricLengths_eq_map h]
    exact leastIncreasing_raised _ count
  · exact geometricLengths?_eq_some_iff h

/-- The progression falls here, as the greatest length is below the least one. -/
theorem geometricLengths_raised_falling :
    let r := roundedTerm 16 4 3
    let lengths := geometricLengths 16 4 3
    2 ≤ 3 ∧ LeastIncreasing r 3 lengths ∧
      (geometricLengths? 16 4 3 = some lengths ↔ ∀ n ∈ lengths, n < 2 ^ wordBits) ∧
      lengths.getD 2 0 = max (r 0 + 2) (max (r 1 + 1) (r 2)) := by
  intro r lengths
  obtain ⟨hleast, hchecked⟩ := geometricLengths_raised 16 4 (show 2 ≤ 3 by decide)
  have hroom : fitsTable 3 8 = true := by decide
  refine ⟨by decide, hleast, by rw [hchecked]; simp [lengths, hroom], ?_⟩
  obtain ⟨⟨j, hj, hmem⟩, hbound⟩ := hleast.isGreatest 2 (by decide)
  have h₀ : r 0 + 2 ≤ lengths.getD 2 0 := hbound ⟨0, by decide, rfl⟩
  have h₁ : r 1 + 1 ≤ lengths.getD 2 0 := hbound ⟨1, by decide, rfl⟩
  have h₂ : r 2 ≤ lengths.getD 2 0 := hbound ⟨2, by decide, rfl⟩
  have hmem : lengths.getD 2 0 = r j + (2 - j) := hmem
  obtain rfl | rfl | rfl : j = 0 ∨ j = 1 ∨ j = 2 := by omega
  all_goals omega

end BranchPrediction
