import BranchPrediction.Proofs.History.ResidueFold

/-!
# Folding a range

The fold of a range puts each bit in at its place in the range, modulo the width. So it is linear
(`residueFold_xor`), and it can be taken in two parts where the first part is a multiple of the
width long (`residueFold_add`). Cutting off a chunk of the width again and again, this is the
exclusive or of all chunks, the last of which may be shorter (`foldRange_eq_chunks`). Main
statement: `fold?_parity`.
-/

namespace BranchPrediction

theorem residueFold_lt (bits : Nat → Bool) (count : Nat) {width : Nat} (hw : 0 < width) :
    residueFold bits count width < 2 ^ width := by
  apply Nat.lt_pow_two_of_testBit
  intro j hj
  rw [testBit_residueFold, residueBit_of_le hw hj]

theorem residueFold_xor (p q : Nat → Bool) (count width : Nat) :
    residueFold (fun k => p k ^^ q k) count width
      = residueFold p count width ^^^ residueFold q count width := by
  apply Nat.eq_of_testBit_eq
  intro j
  simp only [Nat.testBit_xor, testBit_residueFold, residueBit]
  rw [← parity_xor]
  apply parity_congr
  intro k _
  exact Bool.and_xor_distrib_left ..

/-- Places in the second part are the same modulo the width, counted from where it begins. -/
theorem residueFold_add (bits : Nat → Bool) {m width : Nat} (hm : width ∣ m) (n : Nat) :
    residueFold bits (m + n) width
      = residueFold bits m width ^^^ residueFold (fun k => bits (m + k)) n width := by
  obtain ⟨q, rfl⟩ := hm
  apply Nat.eq_of_testBit_eq
  intro j
  simp only [Nat.testBit_xor, testBit_residueFold, residueBit, parity_add, Nat.mul_add_mod]

theorem residueFold_testBit {x n width : Nat} (hx : x < 2 ^ n) (hn : n ≤ width) :
    residueFold x.testBit n width = x := by
  apply Nat.eq_of_testBit_eq
  intro j
  have hplace : residueBit x.testBit n width j
      = parity (fun k => decide (k = j) && x.testBit k) n := by
    apply parity_congr
    intro k hk
    rw [Nat.mod_eq_of_lt (by omega)]
  rw [testBit_residueFold, hplace, parity_single]
  by_cases hj : j < n
  · rw [decide_eq_true hj, Bool.true_and]
  · have hle : 2 ^ n ≤ 2 ^ j := Nat.pow_le_pow_right (by decide) (by omega)
    rw [Nat.testBit_lt_two_pow (by omega), Bool.and_false]

namespace Register

/-- Chunk `i` when the `count` bits from index `first` on are cut into chunks of `width` bits, as a
number. It ends where the range ends. -/
def chunk (r : Register) (first count width i : Nat) : Nat :=
  (r.bits.extractLsb' (first + i * width) (min width (count - i * width))).toNat

/-- All chunks of a range. The last one has what is left over. -/
def chunks (r : Register) (first count width : Nat) : List Nat :=
  (List.range ((count + width - 1) / width)).map (r.chunk first count width)

theorem chunk_eq (r : Register) (first count width i : Nat) :
    r.chunk first count width i
      = residueFold (fun k => r.bit (first + i * width + k)) (min width (count - i * width))
          width := by
  have hbit : ∀ k < min width (count - i * width),
      (r.chunk first count width i).testBit k = r.bit (first + i * width + k) := by
    intro k hk
    rw [chunk, BitVec.testBit_toNat, BitVec.getLsbD_extractLsb', decide_eq_true hk, Bool.true_and,
      bit]
  rw [← residueFold_congr width hbit]
  exact (residueFold_testBit (BitVec.isLt _) (Nat.min_le_left width _)).symm

/-- The exclusive or of the first `m` chunks is the fold of the bits in them. -/
theorem foldl_chunk (r : Register) (first count width m : Nat) :
    ((List.range m).map (r.chunk first count width)).foldl (· ^^^ ·) 0
      = residueFold (fun k => r.bit (first + k)) (min count (m * width)) width := by
  induction m with
  | zero => simp [residueFold]
  | succ m ih =>
    rw [List.range_succ, List.map_append, List.foldl_append, ih]
    simp only [List.map_cons, List.map_nil, List.foldl_cons, List.foldl_nil]
    rw [chunk_eq, Nat.succ_mul]
    rcases Nat.le_total (m * width) count with h | h
    · have hcount : min count (m * width + width)
          = m * width + min width (count - m * width) := by omega
      rw [Nat.min_eq_right h, hcount, residueFold_add _ (Nat.dvd_mul_left width m)]
      simp only [Nat.add_assoc]
    · -- the range ends before this chunk
      have hnone : min width (count - m * width) = 0 := by omega
      rw [hnone, Nat.min_eq_left h, Nat.min_eq_left (by omega)]
      exact Nat.xor_zero _

/-- Halving the range until one chunk is left comes to the same as one chunk after the other. -/
theorem foldRange_eq_chunks (r : Register) (first count : Nat) {width : Nat} (hw : 0 < width) :
    r.foldRange first count width = (r.chunks first count width).foldl (· ^^^ ·) 0 := by
  have hall : count ≤ (count + width - 1) / width * width := by
    have := Nat.div_add_mod' (count + width - 1) width
    have := Nat.mod_lt (count + width - 1) hw
    omega
  rw [chunks, foldl_chunk, Nat.min_eq_left hall, r.foldRange_eq first count hw]

/-! ## Folds of ranges -/

/-- The fold of the bits from index `first` to index `last` is `v`. It has `width` bits, and bit `j`
is the exclusive or of the bits whose places in the range are `j` modulo `width`. -/
structure FoldsTo (r : Register) (first last width v : Nat) : Prop where
  fold_eq : r.fold? first last width = some v
  lt : v < 2 ^ width
  testBit : ∀ j < width,
    v.testBit j = residueBit (fun k => r.bit (first + k)) (last + 1 - first) width j

variable {width : Nat}

theorem foldsTo_residueFold (hw : 0 < width) (hlt : width < 64) (r : Register) {first last : Nat}
    (hle : first ≤ last) (hr : last < r.length) :
    r.FoldsTo first last width
      (residueFold (fun k => r.bit (first + k)) (last + 1 - first) width) where
  fold_eq := r.fold?_eq_some hw hlt hle hr
  lt := residueFold_lt _ _ hw
  testBit j _ := testBit_residueFold _ _ _ j

theorem fold?_xor (hw : 0 < width) (hlt : width < 64) {n : Nat} (x y : BitVec n)
    {first last : Nat} (hle : first ≤ last) (hr : last < n) :
    ∃ u v, (⟨n, x⟩ : Register).fold? first last width = some u ∧
      (⟨n, y⟩ : Register).fold? first last width = some v ∧
      (⟨n, x ^^^ y⟩ : Register).fold? first last width = some (u ^^^ v) := by
  refine ⟨_, _, fold?_eq_some ⟨n, x⟩ hw hlt hle hr, fold?_eq_some ⟨n, y⟩ hw hlt hle hr, ?_⟩
  rw [fold?_eq_some ⟨n, x ^^^ y⟩ hw hlt hle hr, ← residueFold_xor]
  congr 2
  funext k
  exact BitVec.getLsbD_xor

theorem fold?_split (hw : 0 < width) (hlt : width < 64) (r : Register) {first last m : Nat}
    (hm : width ∣ m) (hpos : 0 < m) (hle : first + m ≤ last) (hr : last < r.length) :
    ∃ u v, r.fold? first (first + m - 1) width = some u ∧
      r.fold? (first + m) last width = some v ∧
      r.fold? first last width = some (u ^^^ v) := by
  refine ⟨_, _, r.fold?_eq_some hw hlt (by omega) (by omega), r.fold?_eq_some hw hlt hle hr, ?_⟩
  have hfirst : first + m - 1 + 1 - first = m := by omega
  have hboth : last + 1 - first = m + (last + 1 - (first + m)) := by omega
  rw [r.fold?_eq_some hw hlt (by omega) hr, hfirst, hboth, residueFold_add _ hm]
  simp only [Nat.add_assoc]

/-- A range inside a register folds to the parities of its residue classes, in any width from 1 to
63. An empty range has no fold. The fold of the exclusive or of two registers of one length is the
exclusive or of their folds, and the fold of a range is the exclusive or of the folds of its two
parts where it is cut at a multiple of the width. -/
theorem fold?_parity (hw : 0 < width) (hlt : width < 64) :
    (∀ (r : Register) first last, first ≤ last → last < r.length →
      ∃ v, r.FoldsTo first last width v) ∧
    (∀ (r : Register) first last, last < first → r.fold? first last width = none) ∧
    (∀ n (x y : BitVec n) first last, first ≤ last → last < n →
      ∃ u v, (⟨n, x⟩ : Register).fold? first last width = some u ∧
        (⟨n, y⟩ : Register).fold? first last width = some v ∧
        (⟨n, x ^^^ y⟩ : Register).fold? first last width = some (u ^^^ v)) ∧
    ∀ (r : Register) first last m, width ∣ m → 0 < m → first + m ≤ last → last < r.length →
      ∃ u v, r.fold? first (first + m - 1) width = some u ∧
        r.fold? (first + m) last width = some v ∧
        r.fold? first last width = some (u ^^^ v) := by
  refine ⟨fun r first last hle hr => ?_, fun r first last hempty => ?_,
    fun n x y first last hle hr => ?_, fun r first last m hm hpos hle hr => ?_⟩
  · exact ⟨_, r.foldsTo_residueFold hw hlt hle hr⟩
  · apply if_neg
    rintro ⟨-, -, hle, -⟩
    omega
  · exact fold?_xor hw hlt x y hle hr
  · exact r.fold?_split hw hlt hm hpos hle hr

/-- Two chunks of three bits, and two bits left over. -/
theorem fold?_parity_small :
    let r : Register := ⟨9, 0b010110011⟩
    let s : Register := ⟨9, 0b111000110⟩
    r.FoldsTo 0 7 3 0b111 ∧ r.fold? 5 4 3 = none ∧
      (∃ u v, r.fold? 0 7 3 = some u ∧ s.fold? 0 7 3 = some v ∧
        (⟨9, 0b010110011 ^^^ 0b111000110⟩ : Register).fold? 0 7 3 = some (u ^^^ v)) ∧
      ∃ u v, r.fold? 0 2 3 = some u ∧ r.fold? 3 7 3 = some v ∧
        r.fold? 0 7 3 = some (u ^^^ v) := by
  intro r s
  obtain ⟨hfold, hempty, hxor, hsplit⟩ := @fold?_parity 3 (by decide) (by decide)
  obtain ⟨v, hv⟩ := hfold r 0 7 (by decide) (by decide)
  have hvalue : r.fold? 0 7 3 = some 0b111 := by decide
  obtain rfl : v = 0b111 := Option.some.inj (hv.fold_eq.symm.trans hvalue)
  exact ⟨hv, hempty r 5 4 (by decide), hxor 9 0b010110011 0b111000110 0 7 (by decide) (by decide),
    hsplit r 0 7 3 (by decide) (by decide) (by decide) (by decide)⟩

/-- The range from index 3 to index 2 is empty and has both its ends inside the register, yet it has
no fold. -/
theorem fold?_empty_range :
    let r : Register := ⟨8, 0b10100101⟩
    3 ≤ r.length ∧ 2 < r.length ∧ ¬ ∃ v, r.FoldsTo 3 2 3 v := by
  refine ⟨by decide, by decide, ?_⟩
  rintro ⟨v, h⟩
  have hnone : (⟨8, 0b10100101⟩ : Register).fold? 3 2 3 = none := by decide
  cases hnone.symm.trans h.fold_eq

end Register

end BranchPrediction
